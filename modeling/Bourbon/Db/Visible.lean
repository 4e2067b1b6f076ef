import Bourbon.Db.DbImpl

/-!
# What a snapshot sees

A read of a user key at a snapshot is answered by the newest entry of the key whose sequence number
is not above the snapshot.  A deletion answers like no entry at all.

* `IsNewest`, `Reads` : the answer that a set of entries gives;
* `Finds` : a search finds the newest visible entry, so that it answers a read (`Finds.reads_iff`);
* `reads_of_hidden` : entries behind a newer visible one do not matter;
* `reads_of_obsolete` : nor does a deletion with nothing behind it.
-/

namespace Bourbon

variable {K V : Type*} [LinearOrder K]

/-- The newest entry of the user key that the snapshot sees. -/
structure IsNewest (entries : Set (Entry K V)) (u : K) (snapshot : ℕ) (e : Entry K V) : Prop where
  mem : e ∈ entries
  user_key : e.1.user_key = u
  visible : e.1.sequence ≤ snapshot
  first : ∀ e' ∈ entries, e'.1.user_key = u → e'.1.sequence ≤ snapshot → e.1 ≤ e'.1

/-- The answer to a read: a value, or `none` for absent. -/
def Reads (entries : Set (Entry K V)) (u : K) (snapshot : ℕ) : Option V → Prop
  | some v => ∃ e, IsNewest entries u snapshot e ∧ e.1.type = .value ∧ e.2 = v
  | none => (∃ e, IsNewest entries u snapshot e ∧ e.1.type = .deletion) ∨
      ∀ e ∈ entries, e.1.user_key = u → ¬ e.1.sequence ≤ snapshot

variable {A B : Set (Entry K V)} {u : K} {snapshot : ℕ}

theorem IsNewest.of_subset {e : Entry K V} (h : IsNewest B u snapshot e) (hsub : A ⊆ B)
    (he : e ∈ A) : IsNewest A u snapshot e :=
  ⟨he, h.user_key, h.visible, fun e' he' => h.first e' (hsub he')⟩

theorem IsNewest.of_superset {e : Entry K V} (h : IsNewest A u snapshot e) (hsub : A ⊆ B)
    (hrest : ∀ e' ∈ B, e' ∉ A → e'.1.user_key = u → e'.1.sequence ≤ snapshot → e.1 ≤ e'.1) :
    IsNewest B u snapshot e := by
  refine ⟨hsub h.mem, h.user_key, h.visible, fun e' he' huser hvisible => ?_⟩
  by_cases hin : e' ∈ A
  · exact h.first e' hin huser hvisible
  · exact hrest e' he' hin huser hvisible

theorem reads_congr (h : ∀ e, e.1.user_key = u → e.1.sequence ≤ snapshot → (e ∈ A ↔ e ∈ B))
    (r : Option V) : Reads A u snapshot r ↔ Reads B u snapshot r := by
  have hnewest : ∀ {A B : Set (Entry K V)},
      (∀ e, e.1.user_key = u → e.1.sequence ≤ snapshot → (e ∈ A ↔ e ∈ B)) →
      ∀ e, IsNewest A u snapshot e → IsNewest B u snapshot e := fun h e hn =>
    ⟨(h e hn.user_key hn.visible).1 hn.mem, hn.user_key, hn.visible, fun e' he' huser hvisible =>
      hn.first e' ((h e' huser hvisible).2 he') huser hvisible⟩
  have hiff : ∀ e, IsNewest A u snapshot e ↔ IsNewest B u snapshot e := fun e =>
    ⟨hnewest h e, hnewest (fun e hu hv => (h e hu hv).symm) e⟩
  cases r with
  | some v => simp only [Reads, hiff]
  | none =>
    simp only [Reads, hiff]
    exact or_congr_right ⟨fun hnone e he huser hvisible => hnone e ((h e huser hvisible).2 he) huser
      hvisible, fun hnone e he huser hvisible => hnone e ((h e huser hvisible).1 he) huser hvisible⟩

/-- A snapshot behind all entries sees the same as any later one. -/
theorem reads_of_bounded {last : ℕ} (hA : ∀ a ∈ A, a.1.sequence ≤ last) (hle : last ≤ snapshot)
    (r : Option V) : Reads A u snapshot r ↔ Reads A u last r := by
  have hiff : ∀ e, IsNewest A u snapshot e ↔ IsNewest A u last e := fun e =>
    ⟨fun h => ⟨h.mem, h.user_key, hA e h.mem, fun e' he' huser hvisible =>
        h.first e' he' huser (hvisible.trans hle)⟩,
      fun h => ⟨h.mem, h.user_key, h.visible.trans hle, fun e' he' huser _ =>
        h.first e' he' huser (hA e' he')⟩⟩
  cases r with
  | some v => simp only [Reads, hiff]
  | none =>
    simp only [Reads, hiff]
    exact or_congr_right ⟨fun h e he huser _ => h e he huser ((hA e he).trans hle),
      fun h e he huser _ => h e he huser (hA e he)⟩

theorem reads_insert_newest {e : Entry K V} (hfirst : ∀ a ∈ A, e.1 < a.1)
    (hvisible : e.1.sequence ≤ snapshot) (v : V) :
    Reads (insert e A) e.1.user_key snapshot (some v) ↔ e.1.type = .value ∧ e.2 = v := by
  have hle : ∀ a ∈ insert e A, e.1 ≤ a.1 := by
    rintro a (rfl | ha)
    · exact le_rfl
    · exact (hfirst a ha).le
  have he : e ∈ insert e A := Set.mem_insert e A
  constructor
  · rintro ⟨a, hn, htype, rfl⟩
    rcases hn.mem with rfl | ha
    · exact ⟨htype, rfl⟩
    · exact absurd (hn.first e he rfl hvisible) (not_le.2 (hfirst a ha))
  · rintro ⟨htype, rfl⟩
    exact ⟨e, ⟨he, rfl, hvisible, fun a ha _ _ => hle a ha⟩, htype, rfl⟩

/-- **Hidden entries do not matter.** -/
theorem reads_of_hidden (hsub : A ⊆ B)
    (hhidden : ∀ e ∈ B, e ∉ A → e.1.user_key = u → e.1.sequence ≤ snapshot →
      ∃ e' ∈ A, e'.1.user_key = u ∧ e'.1.sequence ≤ snapshot ∧ e'.1 < e.1) (r : Option V) :
    Reads B u snapshot r ↔ Reads A u snapshot r := by
  have hnewest : ∀ e, IsNewest B u snapshot e ↔ IsNewest A u snapshot e := by
    intro e
    constructor
    · intro h
      refine h.of_subset hsub ?_
      by_contra hout
      obtain ⟨e', he', huser, hvisible, hlt⟩ := hhidden e h.mem hout h.user_key h.visible
      exact absurd (h.first e' (hsub he') huser hvisible) (not_le.2 hlt)
    · intro h
      refine h.of_superset hsub fun e' he' hout huser hvisible => ?_
      obtain ⟨x, hx, hxuser, hxvisible, hlt⟩ := hhidden e' he' hout huser hvisible
      exact (h.first x hx hxuser hxvisible).trans hlt.le
  cases r with
  | some v => simp only [Reads, hnewest]
  | none =>
    simp only [Reads, hnewest]
    refine or_congr_right ⟨fun h e he => h e (hsub he), fun h e he huser hvisible => ?_⟩
    by_cases hin : e ∈ A
    · exact h e hin huser hvisible
    · obtain ⟨e', he', huser', hvisible', -⟩ := hhidden e he hin huser hvisible
      exact h e' he' huser' hvisible'

/-- **An obsolete deletion does not matter**: what is left of the user key comes before it, and what
is taken away not. -/
theorem reads_of_obsolete (hsub : A ⊆ B) {d : Entry K V} (hd : d ∈ B) (hduser : d.1.user_key = u)
    (hdvisible : d.1.sequence ≤ snapshot) (hdtype : d.1.type = .deletion)
    (hgone : ∀ e ∈ B, e ∉ A → e.1.user_key = u → e.1.sequence ≤ snapshot → d.1 ≤ e.1)
    (hleft : ∀ e ∈ A, e.1.user_key = u → e.1.sequence ≤ snapshot → e.1 ≤ d.1) (r : Option V) :
    Reads B u snapshot r ↔ Reads A u snapshot r := by
  have hup : ∀ e, IsNewest A u snapshot e → IsNewest B u snapshot e := fun e h =>
    h.of_superset hsub fun e' he' hout huser hvisible =>
      (hleft e h.mem h.user_key h.visible).trans (hgone e' he' hout huser hvisible)
  -- a newest entry that is taken away has the key of the deletion
  have hkey : ∀ e, IsNewest B u snapshot e → e ∉ A → e.1 = d.1 := fun e h hout =>
    le_antisymm (h.first d hd hduser hdvisible) (hgone e h.mem hout h.user_key h.visible)
  cases r with
  | some v =>
    constructor
    · rintro ⟨e, h, htype, rfl⟩
      refine ⟨e, h.of_subset hsub ?_, htype, rfl⟩
      by_contra hout
      rw [hkey e h hout, hdtype] at htype
      cases htype
    · rintro ⟨e, h, htype, rfl⟩
      exact ⟨e, hup e h, htype, rfl⟩
  | none =>
    constructor
    · rintro (⟨e, h, htype⟩ | hnone)
      · by_cases hin : e ∈ A
        · exact Or.inl ⟨e, h.of_subset hsub hin, htype⟩
        · -- the deletion was the newest entry: another one with its key, or nothing
          have he := hkey e h hin
          by_cases hex : ∃ x ∈ A, x.1.user_key = u ∧ x.1.sequence ≤ snapshot
          · obtain ⟨x, hx, huser, hvisible⟩ := hex
            have hxd : x.1 = d.1 := le_antisymm (hleft x hx huser hvisible)
              (he ▸ h.first x (hsub hx) huser hvisible)
            refine Or.inl ⟨x, ⟨hx, huser, hvisible, fun e' he' huser' hvisible' => ?_⟩, ?_⟩
            · rw [hxd, ← he]
              exact h.first e' (hsub he') huser' hvisible'
            · rw [hxd, hdtype]
          · exact Or.inr fun x hx huser hvisible => hex ⟨x, hx, huser, hvisible⟩
      · exact absurd hdvisible (hnone d hd hduser)
    · rintro (⟨e, h, htype⟩ | hnone)
      · exact Or.inl ⟨e, hup e h, htype⟩
      · refine Or.inl ⟨d, ⟨hd, hduser, hdvisible, fun e' he' huser hvisible => ?_⟩, hdtype⟩
        exact hgone e' he' (fun hin => hnone e' hin huser hvisible) huser hvisible

/-! ### Searches -/

/-- A search finds the newest visible entry, if there is a visible one. -/
structure Finds (entries : Set (Entry K V)) (u : K) (snapshot : ℕ) (found : Option (Entry K V)) :
    Prop where
  newest : ∀ e, found = some e → IsNewest entries u snapshot e
  absent : found = none → ∀ e ∈ entries, e.1.user_key = u → ¬ e.1.sequence ≤ snapshot

/-- The value that a search delivers with the entry it found. -/
def answer : Option (Entry K V) → Option V
  | some (⟨_, _, .value⟩, v) => some v
  | some (⟨_, _, .deletion⟩, _) => none
  | none => none

/-- **A search that finds the newest visible entry answers the read**, and no other answer is
right. -/
theorem Finds.reads_iff {found : Option (Entry K V)} (h : Finds A u snapshot found)
    (hunique : ∀ e ∈ A, ∀ e' ∈ A, e.1 = e'.1 → e = e') (r : Option V) :
    Reads A u snapshot r ↔ r = answer found := by
  cases found with
  | none =>
    have hnone := h.absent rfl
    have hout : ∀ e, ¬ IsNewest A u snapshot e := fun e h => hnone e h.mem h.user_key h.visible
    cases r with
    | none => exact iff_of_true (Or.inr hnone) rfl
    | some v => exact iff_of_false (fun ⟨e, h, _⟩ => hout e h) (by rintro ⟨⟩)
  | some e =>
    have he := h.newest e rfl
    have heq : ∀ e', IsNewest A u snapshot e' → e' = e := fun e' he' =>
      hunique e' he'.mem e he.mem (le_antisymm (he'.first e he.mem he.user_key he.visible)
        (he.first e' he'.mem he'.user_key he'.visible))
    obtain ⟨⟨key, sequence, type⟩, value⟩ := e
    cases type with
    | value =>
      cases r with
      | none =>
        refine iff_of_false ?_ (by rintro ⟨⟩)
        rintro (⟨e', he', htype⟩ | hnone)
        · rw [heq e' he'] at htype
          cases htype
        · exact hnone _ he.mem he.user_key he.visible
      | some v =>
        rw [answer, Option.some.injEq]
        constructor
        · rintro ⟨e', he', -, rfl⟩
          rw [heq e' he']
        · rintro rfl
          exact ⟨_, he, rfl, rfl⟩
    | deletion =>
      cases r with
      | none => exact iff_of_true (Or.inl ⟨_, he, rfl⟩) rfl
      | some v =>
        refine iff_of_false ?_ (by rintro ⟨⟩)
        rintro ⟨e', he', htype, -⟩
        rw [heq e' he'] at htype
        cases htype

/-- **Two searches, one after the other**: what the first one finds is newer than what the second
one could find. -/
theorem Finds.or {found found' : Option (Entry K V)} (h : Finds A u snapshot found)
    (h' : Finds B u snapshot found')
    (hnewer : ∀ e ∈ A, ∀ e' ∈ B, e.1.user_key = e'.1.user_key → e.1 ≤ e'.1) :
    Finds (A ∪ B) u snapshot (found.or found') := by
  cases found with
  | none =>
    rw [Option.none_or]
    have hnone := h.absent rfl
    refine ⟨fun e he => ?_, fun hnone' e he => ?_⟩
    · have hnewest := h'.newest e he
      refine ⟨Or.inr hnewest.mem, hnewest.user_key, hnewest.visible,
        fun e' he' huser hvisible => ?_⟩
      rcases he' with he' | he'
      · exact absurd hvisible (hnone e' he' huser)
      · exact hnewest.first e' he' huser hvisible
    · rcases he with he | he
      · exact hnone e he
      · exact h'.absent hnone' e he
  | some x =>
    rw [Option.some_or]
    have hx := h.newest x rfl
    refine ⟨fun e he => ?_, fun hnone => (by cases hnone)⟩
    obtain rfl := Option.some.inj he
    refine ⟨Or.inl hx.mem, hx.user_key, hx.visible, fun e' he' huser hvisible => ?_⟩
    rcases he' with he' | he'
    · exact hx.first e' he' huser hvisible
    · exact hnewer x hx.mem e' he' (hx.user_key.trans huser.symm)

end Bourbon
