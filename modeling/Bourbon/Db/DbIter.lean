import Bourbon.Table.Merger
import Bourbon.Db.Visible

/-!
# DBIter

`DBIter` makes an iterator over user keys from an iterator over the entries of a database.  For each
user key it shows the newest entry that its sequence number sees, unless that is a deletion.
Moving forward, the internal iterator stands at the entry that is shown; moving backwards, it stands
before all visible entries of the key that is shown, and key and value have been saved.

* `findNextUserEntry_spec`, `findPrevUserEntry_spec` : the two loops;
* `iterates_dbIter` : `DBIter` iterates the values that reads of the same entries find.

Read sampling has no influence on what is shown and is left out.
-/

namespace Bourbon

open Option

open SortedIterator

/-- `DBIter` over an internal iterator. -/
structure DBIter (σ K V : Type*) where
  iter : σ
  direction : Direction
  valid : Bool
  saved_key : Option K
  saved_value : Option V

namespace DBIter

variable {σ K V : Type*} [LinearOrder K]

/-- `key()` and `value()`. -/
def entry (it : SortedIterator σ (Entry K V) (InternalKey K)) (d : DBIter σ K V) : Option (K × V) :=
  if d.valid then
    match d.direction with
    | .kForward => (it.entry d.iter).map fun e => (e.1.user_key, e.2)
    | .kReverse => d.saved_key.bind fun k => d.saved_value.map fun v => (k, v)
  else none

/-- `FindNextUserEntry`.  The key to skip is always `saved_key_`. -/
def findNextUserEntry (it : SortedIterator σ (Entry K V) (InternalKey K)) (sequence : ℕ) :
    ℕ → Bool → DBIter σ K V → Option (DBIter σ K V)
  | 0, _, _ => none
  | fuel + 1, skipping, d =>
    match it.entry d.iter with
    | none => none
    | some e =>
      let visible := decide (e.1.sequence ≤ sequence)
      if visible && e.1.type = .value &&
          !(skipping && d.saved_key.any fun k => e.1.user_key ≤ k) then
        some { d with valid := true, saved_key := none }
      else
        -- skip all upcoming entries of a key that has been deleted
        let deleted := visible && e.1.type = .deletion
        let saved_key := if deleted then some e.1.user_key else d.saved_key
        (it.next d.iter).bind fun iter =>
          if (it.entry iter).isSome then
            findNextUserEntry it sequence fuel (skipping || deleted)
              { d with iter := iter, saved_key := saved_key }
          else some { d with iter := iter, saved_key := none, valid := false }

/-- The loop of `FindPrevUserEntry`, with the type of the entry that has been saved. -/
def findPrevLoop (it : SortedIterator σ (Entry K V) (InternalKey K)) (sequence : ℕ) :
    ℕ → ValueType → DBIter σ K V → Option (ValueType × DBIter σ K V)
  | 0, value_type, d => if (it.entry d.iter).isSome then none else some (value_type, d)
  | fuel + 1, value_type, d =>
    match it.entry d.iter with
    | none => some (value_type, d)
    | some e =>
      if e.1.sequence ≤ sequence then
        if value_type ≠ .deletion ∧ d.saved_key.any (fun k => e.1.user_key < k) = true then
          some (value_type, d)
        else
          let saved := match e.1.type with
            | .deletion => (none, none)
            | .value => (some e.1.user_key, some e.2)
          (it.prev d.iter).bind fun iter =>
            findPrevLoop it sequence fuel e.1.type
              { d with iter := iter, saved_key := saved.1, saved_value := saved.2 }
      else
        (it.prev d.iter).bind fun iter =>
          findPrevLoop it sequence fuel value_type { d with iter := iter }

/-- `FindPrevUserEntry`. -/
def findPrevUserEntry (it : SortedIterator σ (Entry K V) (InternalKey K)) (sequence fuel : ℕ)
    (d : DBIter σ K V) : Option (DBIter σ K V) :=
  (findPrevLoop it sequence fuel .deletion d).map fun r =>
    match r.1 with
    | .deletion =>
      { r.2 with valid := false, saved_key := none, saved_value := none, direction := .kForward }
    | .value => { r.2 with valid := true }

/-- The loop of `Prev` that moves before the entries of the key; `none` inside is the end. -/
def skipBack (it : SortedIterator σ (Entry K V) (InternalKey K)) (saved_key : K) :
    ℕ → σ → Option σ
  | 0, _ => none
  | fuel + 1, iter =>
    (it.prev iter).bind fun iter =>
      match it.entry iter with
      | none => some iter
      | some e => if e.1.user_key < saved_key then some iter else skipBack it saved_key fuel iter

/-- `Next`. -/
def next (it : SortedIterator σ (Entry K V) (InternalKey K)) (sequence fuel : ℕ)
    (d : DBIter σ K V) : Option (DBIter σ K V) :=
  if d.valid then
    match d.direction with
    | .kReverse =>
      -- the internal iterator is just before the entries of the key that is shown
      (if (it.entry d.iter).isSome then it.next d.iter else it.seekToFirst d.iter).bind fun iter =>
        if (it.entry iter).isSome then
          findNextUserEntry it sequence fuel true { d with iter := iter, direction := .kForward }
        else some { d with
          iter := iter, direction := .kForward, valid := false, saved_key := none }
    | .kForward =>
      (it.entry d.iter).bind fun e =>
        findNextUserEntry it sequence fuel true { d with saved_key := some e.1.user_key }
  else none

/-- `Prev`. -/
def prev (it : SortedIterator σ (Entry K V) (InternalKey K)) (sequence fuel : ℕ)
    (d : DBIter σ K V) : Option (DBIter σ K V) :=
  if d.valid then
    match d.direction with
    | .kForward =>
      (it.entry d.iter).bind fun e => (skipBack it e.1.user_key fuel d.iter).bind fun iter =>
        if (it.entry iter).isSome then
          findPrevUserEntry it sequence fuel
            { d with iter := iter, saved_key := some e.1.user_key, direction := .kReverse }
        else some { d with iter := iter, valid := false, saved_key := none, saved_value := none }
    | .kReverse => findPrevUserEntry it sequence fuel d
  else none

/-- The end of `Seek` and `SeekToFirst`. -/
def showFrom (it : SortedIterator σ (Entry K V) (InternalKey K)) (sequence fuel : ℕ)
    (d : DBIter σ K V) : Option (DBIter σ K V) :=
  if (it.entry d.iter).isSome then findNextUserEntry it sequence fuel false d
  else some { d with valid := false }

/-- The operations of `DBIter`.  `Seek` leaves the lookup key in `saved_key_`, where nobody looks at
it. -/
def iterator (it : SortedIterator σ (Entry K V) (InternalKey K)) (sequence fuel : ℕ) :
    SortedIterator (DBIter σ K V) (K × V) K where
  entry := entry it
  seekToFirst d := (it.seekToFirst d.iter).bind fun iter =>
    showFrom it sequence fuel { d with iter := iter, direction := .kForward, saved_value := none }
  seekToLast d := (it.seekToLast d.iter).bind fun iter =>
    findPrevUserEntry it sequence fuel
      { d with iter := iter, direction := .kReverse, saved_value := none }
  seek target d := (it.seek (lookupKey target sequence) d.iter).bind fun iter =>
    showFrom it sequence fuel
      { d with iter := iter, direction := .kForward, saved_key := none, saved_value := none }
  next := next it sequence fuel
  prev := prev it sequence fuel

/-! ### Positions -/

/-- The entries before a position, or all if the iterator is not valid. -/
def before (S : Set (Entry K V)) (x : Option (Entry K V)) : Set (Entry K V) :=
  {b ∈ S | ∀ e, x = some e → b.1 < e.1}

/-- The entries behind a position, or all if the iterator is not valid. -/
def beyond (S : Set (Entry K V)) (x : Option (Entry K V)) : Set (Entry K V) :=
  {b ∈ S | ∀ e, x = some e → e.1 < b.1}

/-- The values that reads find. -/
def live (S : Set (Entry K V)) (sequence : ℕ) : Set (K × V) :=
  {p | Reads S p.1 sequence (some p.2)}

variable {it : SortedIterator σ (Entry K V) (InternalKey K)} {sequence fuel : ℕ}
  {S : Set (Entry K V)} {inv : σ → Prop} {d : DBIter σ K V} {e : Entry K V}

variable {x : Option (Entry K V)}

theorem le_of_mem_before
    (hx : IsFirst Prod.fst S (fun k => e.1 < k) x) : ∀ b ∈ before S x, b.1 ≤ e.1 := by
  rintro b ⟨hb, hbefore⟩
  by_contra hlt
  cases x with
  | none => exact hx b hb (not_le.1 hlt)
  | some a => exact absurd (hx.2.2 b hb (not_le.1 hlt)) (not_le.2 (hbefore a rfl))

theorem before_next (hx : IsFirst Prod.fst S (fun k => e.1 < k) x) :
    before S (some e) ⊆ before S x := by
  rintro b ⟨hb, hbefore⟩
  refine ⟨hb, fun a ha => ?_⟩
  subst ha
  exact (hbefore e rfl).trans hx.2.1

theorem le_of_not_mem_before {b : Entry K V} (hb : b ∈ S) (hnot : b ∉ before S (some e)) :
    e.1 ≤ b.1 := by
  by_contra hlt
  exact hnot ⟨hb, fun a ha => some.inj ha ▸ not_le.1 hlt⟩

theorem beyond_prev (hinj : Set.InjOn Prod.fst S) (he : e ∈ S)
    (hx : IsLast Prod.fst S (fun k => k < e.1) x) : beyond S x = insert e (beyond S (some e)) := by
  ext b
  have hiff : b ∈ beyond S x ↔ b ∈ S ∧ e.1 ≤ b.1 := by
    refine and_congr_right fun hb => ?_
    cases x with
    | none => exact iff_of_true (fun a ha => (by cases ha)) (not_lt.1 (hx b hb))
    | some a =>
      constructor
      · intro h
        by_contra hlt
        exact absurd (hx.2.2 b hb (not_le.1 hlt)) (not_le.2 (h a rfl))
      · rintro hle a' ha'
        obtain rfl := some.inj ha'
        exact hx.2.1.trans_le hle
  rw [hiff, Set.mem_insert_iff]
  constructor
  · rintro ⟨hb, hle⟩
    rcases hle.eq_or_lt with heq | hlt
    · exact Or.inl (hinj hb he heq.symm)
    · exact Or.inr ⟨hb, fun a ha => some.inj ha ▸ hlt⟩
  · rintro (rfl | ⟨hb, hlt⟩)
    · exact ⟨he, le_rfl⟩
    · exact ⟨hb, (hlt e rfl).le⟩

/-- The invariant of `DBIter`. -/
structure Inv (it : SortedIterator σ (Entry K V) (InternalKey K)) (S : Set (Entry K V))
    (sequence : ℕ) (inv : σ → Prop) (d : DBIter σ K V) : Prop where
  iter : inv d.iter
  forward : d.valid = true → d.direction = .kForward →
    ∃ e, it.entry d.iter = some e ∧ IsNewest S e.1.user_key sequence e ∧ e.1.type = .value
  reverse : d.valid = true → d.direction = .kReverse →
    ∃ k v, d.saved_key = some k ∧ d.saved_value = some v ∧ (k, v) ∈ live S sequence ∧
      (∀ e, it.entry d.iter = some e → e.1.user_key < k) ∧
      ∀ b ∈ beyond S (it.entry d.iter), b.1.sequence ≤ sequence → k ≤ b.1.user_key

/-! ### Forward -/

/-- What is still wanted: the keys in `W` behind the one to skip. -/
def Wanted (W : K → Prop) (skipping : Bool) (skip : Option K) (k : K) : Prop :=
  W k ∧ (skipping = true → ∀ s, skip = some s → s < k)

/-- The invariant of the loop of `FindNextUserEntry`, at a position. -/
structure Searching (S : Set (Entry K V)) (sequence : ℕ) (W : K → Prop) (skipping : Bool)
    (skip : Option K) (x : Option (Entry K V)) : Prop where
  unseen : ∀ b ∈ before S x, Wanted W skipping skip b.1.user_key → ¬ b.1.sequence ≤ sequence
  done : ∀ k v, W k → ¬ Wanted W skipping skip k → (k, v) ∉ live S sequence
  wanted : ∀ e, x = some e → ∀ k, e.1.user_key ≤ k →
    (skipping = true → ∀ s, skip = some s → s < k) → W k
  skipped : skipping = true → ∀ s, skip = some s → ∀ b ∈ S, b ∉ before S x →
    b.1.sequence ≤ sequence → s ≤ b.1.user_key

namespace Searching

variable {W : K → Prop} {skipping : Bool} {skip : Option K}

variable {x : Option (Entry K V)}

/-- A live key that is wanted has no entry before the position. -/
theorem not_before (h : Searching S sequence W skipping skip x) {k : K}
    {v : V} (hk : W k) (hlive : (k, v) ∈ live S sequence) :
    Wanted W skipping skip k ∧
      ∃ a, IsNewest S k sequence a ∧ a.1.type = .value ∧ a.2 = v ∧ a ∉ before S x := by
  have hwanted : Wanted W skipping skip k := by
    by_contra hnot
    exact h.done k v hk hnot hlive
  obtain ⟨a, ha, htype, hv⟩ := hlive
  refine ⟨hwanted, a, ha, htype, hv, fun hbefore => ?_⟩
  exact h.unseen a hbefore (ha.user_key.symm ▸ hwanted) ha.visible

theorem next (h : Searching S sequence W skipping skip (some e))
    (hskip : Wanted W skipping skip e.1.user_key → ¬ e.1.sequence ≤ sequence)
    (hinj : Set.InjOn Prod.fst S) (he : e ∈ S)
    (hx : IsFirst Prod.fst S (fun k => e.1 < k) x) : Searching S sequence W skipping skip x := by
  refine ⟨fun b hb hwanted => ?_, h.done, fun a ha k hk => ?_, fun hs s hskip b hb hnot => ?_⟩
  · rcases (le_of_mem_before hx b hb).eq_or_lt with heq | hlt
    · obtain rfl := hinj hb.1 he heq
      exact hskip hwanted
    · exact h.unseen b ⟨hb.1, fun a ha => some.inj ha ▸ hlt⟩ hwanted
  · subst ha
    exact h.wanted e rfl k ((InternalKey.user_key_le hx.2.1.le).trans hk)
  · exact h.skipped hs s hskip b hb fun hbefore => hnot (before_next hx hbefore)

theorem deleted (h : Searching S sequence W skipping skip (some e)) (hinj : Set.InjOn Prod.fst S)
    (he : e ∈ S) (hvisible : e.1.sequence ≤ sequence) (htype : e.1.type = .deletion)
    (hx : IsFirst Prod.fst S (fun k => e.1 < k) x) :
    Searching S sequence W true (some e.1.user_key) x := by
  refine ⟨fun b hb hwanted => ?_, fun k v hk hnot hlive => ?_, fun a ha k hk hlt => ?_,
    fun _ s hs b hb hnot _ => ?_⟩
  · have hle := InternalKey.user_key_le (le_of_mem_before hx b hb)
    exact absurd (hwanted.2 rfl _ rfl) (not_lt.2 hle)
  · obtain ⟨-, a, ha, hatype, -, hbefore⟩ := h.not_before hk hlive
    have hle := le_of_not_mem_before ha.mem hbefore
    have hkey : k ≤ e.1.user_key := by
      by_contra hlt
      exact hnot ⟨hk, fun _ s hs => some.inj hs ▸ not_le.1 hlt⟩
    have huser : e.1.user_key = k :=
      le_antisymm (ha.user_key ▸ InternalKey.user_key_le hle) hkey
    obtain rfl := hinj ha.mem he (le_antisymm (ha.first e he huser hvisible) hle)
    rw [htype] at hatype
    cases hatype
  · have hlt := hlt rfl _ rfl
    refine h.wanted e rfl k hlt.le fun hs s hskip => ?_
    exact (h.skipped hs s hskip e he (fun hself => lt_irrefl _ (hself.2 e rfl))
      hvisible).trans_lt hlt
  · have hle := le_of_not_mem_before hb fun hbefore => hnot (before_next hx hbefore)
    exact some.inj hs ▸ InternalKey.user_key_le hle

theorem found (h : Searching S sequence W skipping skip (some e)) (he : e ∈ S)
    (hvisible : e.1.sequence ≤ sequence) (htype : e.1.type = .value)
    (hwanted : Wanted W skipping skip e.1.user_key) :
    IsNewest S e.1.user_key sequence e ∧
      IsFirst Prod.fst (live S sequence) W (some (e.1.user_key, e.2)) := by
  have hnewest : IsNewest S e.1.user_key sequence e := by
    refine ⟨he, rfl, hvisible, fun b hb huser hb' => le_of_not_mem_before hb fun hbefore => ?_⟩
    exact h.unseen b hbefore (huser.symm ▸ hwanted) hb'
  refine ⟨hnewest, ⟨e, hnewest, htype, rfl⟩, hwanted.1, fun p hlive hp => ?_⟩
  obtain ⟨-, a, ha, -, -, hbefore⟩ := h.not_before hp hlive
  exact ha.user_key ▸ InternalKey.user_key_le (le_of_not_mem_before ha.mem hbefore)

theorem exhausted (h : Searching S sequence W skipping skip none) :
    IsFirst Prod.fst (live S sequence) W none := by
  intro p hlive hp
  obtain ⟨-, a, ha, -, -, hbefore⟩ := h.not_before hp hlive
  exact hbefore ⟨ha.mem, fun b hb => (by cases hb)⟩

end Searching

variable {W : K → Prop}

/-- **`FindNextUserEntry` shows the first live key that is wanted.** -/
theorem findNextUserEntry_spec (h : it.Iterates Prod.fst S inv) (hfin : S.Finite)
    (hinj : Set.InjOn Prod.fst S) {skipping : Bool} (hiter : inv d.iter)
    (hdirection : d.direction = .kForward) (hentry : it.entry d.iter = some e)
    (hsearch : Searching S sequence W skipping d.saved_key (some e))
    (hfuel : {b ∈ S | e.1 ≤ b.1}.ncard ≤ fuel) :
    ∃ d', findNextUserEntry it sequence fuel skipping d = some d' ∧ Inv it S sequence inv d' ∧
      IsFirst Prod.fst (live S sequence) W (entry it d') := by
  have he : e ∈ S := h.mem d.iter e hiter hentry
  induction fuel generalizing d e skipping with
  | zero =>
    have hempty := (Set.ncard_eq_zero (hfin.subset (Set.sep_subset _ _))).1 (Nat.le_zero.1 hfuel)
    have : e ∈ {b ∈ S | e.1 ≤ b.1} := ⟨he, le_rfl⟩
    rw [hempty] at this
    exact this.elim
  | succ fuel ih =>
    obtain ⟨iter, hnext, hinv, hfirst⟩ := h.next d.iter e hiter hentry
    -- the rest of the loop, after an entry that is not shown
    have hrest : ∀ (skipping : Bool) (saved_key : Option K),
        Searching S sequence W skipping saved_key (it.entry iter) →
        ∃ d', (if (it.entry iter).isSome = true then
            findNextUserEntry it sequence fuel skipping
              { d with iter := iter, saved_key := saved_key }
          else some { d with iter := iter, saved_key := none, valid := false }) = some d' ∧
          Inv it S sequence inv d' ∧ IsFirst Prod.fst (live S sequence) W (entry it d') := by
      intro skipping saved_key hs
      cases hx : it.entry iter with
      | none =>
        rw [hx] at hs
        exact ⟨_, rfl, ⟨hinv, fun hv => (by cases hv), fun hv => (by cases hv)⟩, hs.exhausted⟩
      | some e' =>
        rw [hx] at hs hfirst
        refine ih hinv hdirection hx hs ?_ hfirst.1
        have hlt : {b ∈ S | e'.1 ≤ b.1}.ncard < {b ∈ S | e.1 ≤ b.1}.ncard := by
          refine Set.ncard_lt_ncard ⟨?_, ?_⟩ (hfin.subset (Set.sep_subset _ _))
          · exact fun b hb => ⟨hb.1, hfirst.2.1.le.trans hb.2⟩
          · exact fun hsub => absurd (hsub ⟨he, le_rfl⟩).2 (not_le.2 hfirst.2.1)
        omega
    rw [findNextUserEntry, hentry]
    simp only [hnext, bind_some]
    by_cases hvisible : e.1.sequence ≤ sequence
    · cases htype : e.1.type with
      | deletion =>
        simpa [hvisible, htype] using hrest true _ (hsearch.deleted hinj he hvisible htype hfirst)
      | value =>
        by_cases hskip : (skipping && d.saved_key.any fun k => e.1.user_key ≤ k) = true
        · have hnot : ¬ Wanted W skipping d.saved_key e.1.user_key := by
            rintro ⟨-, hwanted⟩
            obtain ⟨hs, hany⟩ := Bool.and_eq_true_iff.1 hskip
            cases hsaved : d.saved_key with
            | none =>
              rw [hsaved] at hany
              cases hany
            | some s =>
              rw [hsaved] at hany
              exact absurd (hwanted hs s hsaved) (not_lt.2 (of_decide_eq_true hany))
          simpa [hvisible, htype, hskip] using hrest skipping d.saved_key
            (hsearch.next (fun hwanted => absurd hwanted hnot) hinj he hfirst)
        · have hwanted : Wanted W skipping d.saved_key e.1.user_key := by
            have hbehind : skipping = true → ∀ s, d.saved_key = some s → s < e.1.user_key := by
              intro hs s hsaved
              by_contra hle
              rw [hs, hsaved] at hskip
              exact hskip (by simpa using not_lt.1 hle)
            exact ⟨hsearch.wanted e rfl _ le_rfl hbehind, hbehind⟩
          obtain ⟨hnewest, hshown⟩ := hsearch.found he hvisible htype hwanted
          refine ⟨{ d with valid := true, saved_key := none }, ?_, ⟨hiter, fun _ _ => ?_, ?_⟩, ?_⟩
          · simp [hvisible, hskip]
          · exact ⟨e, hentry, hnewest, htype⟩
          · exact fun _ hrev => absurd (hdirection.symm.trans hrev) (by decide)
          · simpa [entry, hdirection, hentry] using hshown
    · simpa [hvisible] using hrest skipping d.saved_key
        (hsearch.next (fun _ => hvisible) hinj he hfirst)

/-! ### Backward -/

theorem beyond_none : beyond S none = S :=
  Set.sep_eq_self_iff_mem_true.2 fun _ _ _ h => (by cases h)

/-- The invariant of the loop of `FindPrevUserEntry`, at a position: what has been saved is the
first live key among the entries that have been passed. -/
structure Collected (S : Set (Entry K V)) (sequence : ℕ) (W : K → Prop) (value_type : ValueType)
    (saved_key : Option K) (saved_value : Option V) (x : Option (Entry K V)) : Prop where
  wanted : ∀ e, x = some e → W e.1.user_key
  deletion : value_type = .deletion → ∀ k v, W k → ¬ Reads (beyond S x) k sequence (some v)
  value : value_type = .value → ∃ k v, saved_key = some k ∧ saved_value = some v ∧ W k ∧
    Reads (beyond S x) k sequence (some v) ∧
    (∀ k' v', W k' → k < k' → ¬ Reads (beyond S x) k' sequence (some v')) ∧
    ∀ b ∈ beyond S x, b.1.sequence ≤ sequence → W b.1.user_key → k ≤ b.1.user_key

namespace Collected

variable {W : K → Prop} {value_type : ValueType} {saved_key : Option K} {saved_value : Option V}
  {x : Option (Entry K V)}

variable (h : Collected S sequence W value_type saved_key saved_value (some e))
include h

theorem wanted_prev
    (hW : ∀ k k', k ≤ k' → W k' → W k) (hx : IsLast Prod.fst S (fun k => k < e.1) x) :
    ∀ a, x = some a → W a.1.user_key := by
  rintro a rfl
  exact hW _ _ (InternalKey.user_key_le hx.2.1.le) (h.wanted e rfl)

theorem unseen
    (hW : ∀ k k', k ≤ k' → W k' → W k) (hinj : Set.InjOn Prod.fst S) (he : e ∈ S)
    (hnot : ¬ e.1.sequence ≤ sequence) (hx : IsLast Prod.fst S (fun k => k < e.1) x) :
    Collected S sequence W value_type saved_key saved_value x := by
  have hreads : ∀ k r, Reads (beyond S x) k sequence r ↔
      Reads (beyond S (some e)) k sequence r := by
    intro k r
    rw [beyond_prev hinj he hx]
    refine reads_congr (fun b _ hb => ⟨fun hmem => ?_, Set.mem_insert_of_mem e⟩) r
    rcases hmem with rfl | hmem
    · exact absurd hb hnot
    · exact hmem
  refine ⟨h.wanted_prev hW hx, fun ht k v hk => ?_, fun ht => ?_⟩
  · rw [hreads]
    exact h.deletion ht k v hk
  · obtain ⟨k, v, hsk, hsv, hk, hread, hlater, hle⟩ := h.value ht
    refine ⟨k, v, hsk, hsv, hk, (hreads k _).2 hread, fun k' v' hk' hlt => ?_,
      fun b hb hvisible => ?_⟩
    · rw [hreads]
      exact hlater k' v' hk' hlt
    · rw [beyond_prev hinj he hx] at hb
      rcases hb with rfl | hb
      · exact absurd hvisible hnot
      · exact hle b hb hvisible

theorem seen
    (hW : ∀ k k', k ≤ k' → W k' → W k) (hinj : Set.InjOn Prod.fst S) (he : e ∈ S)
    (hvisible : e.1.sequence ≤ sequence)
    (hgo : value_type = .value → ∀ k, saved_key = some k → k ≤ e.1.user_key)
    (hx : IsLast Prod.fst S (fun k => k < e.1) x) :
    Collected S sequence W e.1.type (if e.1.type = .value then some e.1.user_key else none)
      (if e.1.type = .value then some e.2 else none) x := by
  have hbehind : ∀ a ∈ beyond S (some e), e.1 < a.1 := fun a ha => ha.2 e rfl
  -- keys that have been passed completely are not live
  have hothers : ∀ k v, W k → k ≠ e.1.user_key →
      ¬ Reads (insert e (beyond S (some e))) k sequence (some v) := by
    intro k v hk hne hread
    have hread : Reads (beyond S (some e)) k sequence (some v) := by
      refine (reads_congr (fun b hb _ => ⟨fun hmem => ?_, Set.mem_insert_of_mem e⟩) _).1 hread
      exact hmem.resolve_left fun heq => hne (heq ▸ hb.symm)
    cases value_type with
    | deletion => exact h.deletion rfl k v hk hread
    | value =>
      obtain ⟨k₀, v₀, hsk, -, -, -, hlater, -⟩ := h.value rfl
      obtain ⟨a, ha, -, -⟩ := id hread
      have hle : e.1.user_key ≤ k := ha.user_key ▸ InternalKey.user_key_le (hbehind a ha.mem).le
      exact hlater k v hk ((hgo rfl k₀ hsk).trans_lt (hle.lt_of_ne hne.symm)) hread
  have hself := fun v => reads_insert_newest hbehind hvisible v
  refine ⟨h.wanted_prev hW hx, fun ht k v hk => ?_, fun ht => ?_⟩
  · rw [beyond_prev hinj he hx]
    by_cases hkey : k = e.1.user_key
    · subst hkey
      rw [hself, ht]
      exact fun hand => absurd hand.1 (by decide)
    · exact hothers k v hk hkey
  · rw [beyond_prev hinj he hx, if_pos ht, if_pos ht]
    refine ⟨_, _, rfl, rfl, h.wanted e rfl, (hself e.2).2 ⟨ht, rfl⟩, fun k' v' hk' hlt =>
      hothers k' v' hk' hlt.ne', fun b hb _ _ => ?_⟩
    rcases hb with rfl | hb
    · exact le_rfl
    · exact InternalKey.user_key_le (hbehind b hb).le

omit h

theorem shown (h : Collected S sequence W .value saved_key saved_value x)
    (hW : ∀ k k', k ≤ k' → W k' → W k)
    (hstop : ∀ e, x = some e → ∀ k, saved_key = some k → e.1.user_key < k) :
    ∃ k v, saved_key = some k ∧ saved_value = some v ∧
      IsLast Prod.fst (live S sequence) W (some (k, v)) ∧
      ∀ b ∈ beyond S x, b.1.sequence ≤ sequence → k ≤ b.1.user_key := by
  obtain ⟨k, v, hsk, hsv, hk, hread, hlater, hle⟩ := h.value rfl
  -- the entries that have not been passed have smaller keys
  have hpassed : ∀ b ∈ S, k ≤ b.1.user_key → b ∈ beyond S x := by
    refine fun b hb hkb => ⟨hb, fun e he => ?_⟩
    exact InternalKey.lt_of_user_key_lt ((hstop e he k hsk).trans_le hkb)
  have hreads : ∀ k', k ≤ k' → ∀ r, Reads (beyond S x) k' sequence r ↔ Reads S k' sequence r :=
    fun k' hk' r => reads_congr
      (fun b hb _ => ⟨fun hmem => hmem.1, fun hmem => hpassed b hmem (hk'.trans_eq hb.symm)⟩) r
  refine ⟨k, v, hsk, hsv, ⟨(hreads k le_rfl _).1 hread, hk, fun p hlive hp => ?_⟩,
    fun b hb hvisible => ?_⟩
  · by_contra hlt
    exact hlater p.1 p.2 hp (not_le.1 hlt) ((hreads p.1 (not_le.1 hlt).le _).2 hlive)
  · by_cases hb' : W b.1.user_key
    · exact hle b hb hvisible hb'
    · by_contra hlt
      exact hb' (hW _ _ (not_le.1 hlt).le hk)

end Collected

theorem findPrevLoop_spec (h : it.Iterates Prod.fst S inv) (hfin : S.Finite)
    (hinj : Set.InjOn Prod.fst S) (hW : ∀ k k', k ≤ k' → W k' → W k)
    {value_type : ValueType} (hiter : inv d.iter)
    (hcol : Collected S sequence W value_type d.saved_key d.saved_value (it.entry d.iter))
    (hfuel : {b ∈ S | ∃ e, it.entry d.iter = some e ∧ b.1 ≤ e.1}.ncard ≤ fuel) :
    ∃ value_type' d', findPrevLoop it sequence fuel value_type d = some (value_type', d') ∧
      inv d'.iter ∧ d'.direction = d.direction ∧
      Collected S sequence W value_type' d'.saved_key d'.saved_value (it.entry d'.iter) ∧
      ∀ e, it.entry d'.iter = some e →
        value_type' = .value ∧ ∀ k, d'.saved_key = some k → e.1.user_key < k := by
  induction fuel generalizing d value_type with
  | zero =>
    have hempty := (Set.ncard_eq_zero (hfin.subset (Set.sep_subset _ _))).1 (Nat.le_zero.1 hfuel)
    cases hentry : it.entry d.iter with
    | none =>
      refine ⟨value_type, d, by simp [findPrevLoop, hentry], hiter, rfl, hentry ▸ hcol,
        fun e he => ?_⟩
      rw [hentry] at he
      cases he
    | some e =>
      have : e ∈ {b ∈ S | ∃ e, it.entry d.iter = some e ∧ b.1 ≤ e.1} :=
        ⟨h.mem d.iter e hiter hentry, e, hentry, le_rfl⟩
      rw [hempty] at this
      exact this.elim
  | succ fuel ih =>
    rw [findPrevLoop]
    cases hentry : it.entry d.iter with
    | none =>
      refine ⟨value_type, d, rfl, hiter, rfl, hentry ▸ hcol, fun e he => ?_⟩
      rw [hentry] at he
      cases he
    | some e =>
      rw [hentry] at hcol
      have he : e ∈ S := h.mem d.iter e hiter hentry
      obtain ⟨iter, hprev, hinv, hlast⟩ := h.prev d.iter e hiter hentry
      have hless : {b ∈ S | ∃ a, it.entry iter = some a ∧ b.1 ≤ a.1}.ncard ≤ fuel := by
        have hlt : {b ∈ S | ∃ a, it.entry iter = some a ∧ b.1 ≤ a.1}.ncard <
            {b ∈ S | ∃ e, it.entry d.iter = some e ∧ b.1 ≤ e.1}.ncard := by
          refine Set.ncard_lt_ncard ⟨?_, ?_⟩ (hfin.subset (Set.sep_subset _ _))
          · rintro b ⟨hb, a, ha, hle⟩
            rw [ha] at hlast
            exact ⟨hb, e, hentry, hle.trans hlast.2.1.le⟩
          · intro hsub
            obtain ⟨-, a, ha, hle⟩ := hsub ⟨he, e, hentry, le_rfl⟩
            rw [ha] at hlast
            exact absurd hle (not_le.2 hlast.2.1)
        omega
      simp only [hprev, bind_some]
      by_cases hvisible : e.1.sequence ≤ sequence
      · rw [if_pos hvisible]
        by_cases hstop : value_type ≠ .deletion ∧ d.saved_key.any (fun k => e.1.user_key < k) = true
        · rw [if_pos hstop]
          refine ⟨value_type, d, rfl, hiter, rfl, hentry ▸ hcol, fun e' he' => ⟨?_, fun k hk => ?_⟩⟩
          · cases value_type with
            | deletion => exact absurd rfl hstop.1
            | value => rfl
          · obtain rfl := some.inj (hentry.symm.trans he')
            simpa [hk] using hstop.2
        · rw [if_neg hstop]
          have hgo : value_type = .value → ∀ k, d.saved_key = some k → k ≤ e.1.user_key := by
            intro ht k hk
            by_contra hlt
            refine hstop ⟨by rw [ht]; decide, ?_⟩
            simpa [hk] using hlt
          have hseen := hcol.seen hW hinj he hvisible hgo hlast
          cases htype : e.1.type with
          | deletion =>
            rw [htype] at hseen
            exact ih (d := { d with iter := iter, saved_key := none, saved_value := none }) hinv
              hseen hless
          | value =>
            rw [htype] at hseen
            exact ih (d := { d with
              iter := iter, saved_key := some e.1.user_key, saved_value := some e.2 })
                hinv hseen hless
      · rw [if_neg hvisible]
        exact ih (d := { d with iter := iter }) hinv (hcol.unseen hW hinj he hvisible hlast) hless

/-- **`FindPrevUserEntry` shows the last live key that is wanted.** -/
theorem findPrevUserEntry_spec (h : it.Iterates Prod.fst S inv) (hfin : S.Finite)
    (hinj : Set.InjOn Prod.fst S) (hW : ∀ k k', k ≤ k' → W k' → W k)
    (hiter : inv d.iter) (hdirection : d.direction = .kReverse)
    (hwanted : ∀ e, it.entry d.iter = some e → W e.1.user_key)
    (hbeyond : ∀ b ∈ beyond S (it.entry d.iter), b.1.sequence ≤ sequence → ¬ W b.1.user_key)
    (hfuel : S.ncard ≤ fuel) :
    ∃ d', findPrevUserEntry it sequence fuel d = some d' ∧ Inv it S sequence inv d' ∧
      IsLast Prod.fst (live S sequence) W (entry it d') := by
  have hstart : Collected S sequence W .deletion d.saved_key d.saved_value (it.entry d.iter) := by
    refine ⟨hwanted, fun _ k v hk => ?_, fun ht => (by cases ht)⟩
    rintro ⟨a, ha, -, -⟩
    exact hbeyond a ha.mem ha.visible (ha.user_key.symm ▸ hk)
  obtain ⟨value_type, d', hloop, hinv, hdir, hcol, hstop⟩ := findPrevLoop_spec h hfin hinj hW hiter
    hstart ((Set.ncard_le_ncard (Set.sep_subset _ _) hfin).trans hfuel)
  rw [findPrevUserEntry, hloop, map_some]
  cases value_type with
  | deletion =>
    refine ⟨_, rfl, ⟨hinv, fun hv => (by cases hv), fun hv => (by cases hv)⟩, ?_⟩
    have hnone : it.entry d'.iter = none := by
      cases hx : it.entry d'.iter with
      | none => rfl
      | some e => cases (hstop e hx).1
    intro p hlive hp
    have := hcol.deletion rfl p.1 p.2 hp
    rw [hnone, beyond_none] at this
    exact this hlive
  | value =>
    obtain ⟨k, v, hsk, hsv, hshown, hle⟩ := hcol.shown hW fun e he => (hstop e he).2
    refine ⟨_, rfl, ⟨hinv, fun _ hfor => ?_, fun _ _ => ?_⟩, ?_⟩
    · exact absurd ((hdir.trans hdirection).symm.trans hfor) (by decide)
    · exact ⟨k, v, hsk, hsv, hshown.1, fun e he => (hstop e he).2 k hsk, hle⟩
    · simpa [entry, hdir.trans hdirection, hsk, hsv] using hshown

/-! ### Turning round -/

theorem skipBack_spec (h : it.Iterates Prod.fst S inv) (hfin : S.Finite)
    (hinj : Set.InjOn Prod.fst S) {k : K} {iter : σ} (hiter : inv iter)
    (hentry : it.entry iter = some e) (hle : k ≤ e.1.user_key)
    (hfuel : {b ∈ S | b.1 ≤ e.1}.ncard ≤ fuel) :
    ∃ iter', skipBack it k fuel iter = some iter' ∧ inv iter' ∧
      (∀ a, it.entry iter' = some a → a.1.user_key < k) ∧
      ∀ b ∈ beyond S (it.entry iter'), k ≤ b.1.user_key := by
  have he : e ∈ S := h.mem iter e hiter hentry
  induction fuel generalizing iter e with
  | zero =>
    have hempty := (Set.ncard_eq_zero (hfin.subset (Set.sep_subset _ _))).1 (Nat.le_zero.1 hfuel)
    have : e ∈ {b ∈ S | b.1 ≤ e.1} := ⟨he, le_rfl⟩
    rw [hempty] at this
    exact this.elim
  | succ fuel ih =>
    obtain ⟨iter', hprev, hinv, hlast⟩ := h.prev iter e hiter hentry
    have hpassed : ∀ b ∈ beyond S (it.entry iter'), k ≤ b.1.user_key := by
      rw [beyond_prev hinj he hlast]
      rintro b (rfl | hb)
      · exact hle
      · exact hle.trans (InternalKey.user_key_le (hb.2 e rfl).le)
    rw [skipBack, hprev, bind_some]
    cases hx : it.entry iter' with
    | none => exact ⟨iter', rfl, hinv, fun a ha => (by rw [hx] at ha; cases ha), hpassed⟩
    | some a =>
      rw [hx] at hlast
      by_cases hlt : a.1.user_key < k
      · simp only [if_pos hlt]
        exact ⟨iter', rfl, hinv, fun a' ha' => some.inj (hx.symm.trans ha') ▸ hlt, hpassed⟩
      · simp only [if_neg hlt]
        refine ih hinv hx (not_lt.1 hlt) ?_ hlast.1
        have hless : {b ∈ S | b.1 ≤ a.1}.ncard < {b ∈ S | b.1 ≤ e.1}.ncard := by
          refine Set.ncard_lt_ncard ⟨?_, ?_⟩ (hfin.subset (Set.sep_subset _ _))
          · exact fun b hb => ⟨hb.1, hb.2.trans hlast.2.1.le⟩
          · exact fun hsub => absurd (hsub ⟨he, le_rfl⟩).2 (not_le.2 hlast.2.1)
        omega

end DBIter

variable {σ K V : Type*} [LinearOrder K] {it : SortedIterator σ (Entry K V) (InternalKey K)}
  {S : Set (Entry K V)} {inv : σ → Prop} {sequence fuel : ℕ} {d : DBIter σ K V}

namespace DBIter

/-- The loop that starts at a position before which nothing is wanted. -/
theorem showFrom_spec (h : it.Iterates Prod.fst S inv) (hfin : S.Finite)
    (hinj : Set.InjOn Prod.fst S) (hfuel : S.ncard ≤ fuel) {W : K → Prop} (hiter : inv d.iter)
    (hdirection : d.direction = .kForward)
    (hunseen : ∀ b ∈ before S (it.entry d.iter), W b.1.user_key → ¬ b.1.sequence ≤ sequence)
    (hwanted : ∀ e, it.entry d.iter = some e → ∀ k, e.1.user_key ≤ k → W k) :
    ∃ d', showFrom it sequence fuel d = some d' ∧ Inv it S sequence inv d' ∧
      IsFirst Prod.fst (live S sequence) W (entry it d') := by
  have hsearch : Searching S sequence W false d.saved_key (it.entry d.iter) :=
    ⟨fun b hb hw => hunseen b hb hw.1, fun k v hk hnot => absurd ⟨hk, fun hs => (by cases hs)⟩ hnot,
      fun e he k hk _ => hwanted e he k hk, fun hs => (by cases hs)⟩
  rw [showFrom]
  cases hentry : it.entry d.iter with
  | none =>
    rw [hentry] at hsearch
    exact ⟨_, rfl, ⟨hiter, fun hv => (by cases hv), fun hv => (by cases hv)⟩, hsearch.exhausted⟩
  | some e =>
    rw [hentry] at hsearch
    exact findNextUserEntry_spec h hfin hinj hiter hdirection hentry hsearch
      ((Set.ncard_le_ncard (Set.sep_subset _ _) hfin).trans hfuel)

variable {p : K × V}

theorem Inv.shown (hd : Inv it S sequence inv d) (hp : entry it d = some p) :
    p ∈ live S sequence ∧ d.valid = true ∧
      ((d.direction = .kForward ∧ ∃ e, it.entry d.iter = some e ∧ e.1.user_key = p.1) ∨
        (d.direction = .kReverse ∧ d.saved_key = some p.1 ∧
          (∀ e, it.entry d.iter = some e → e.1.user_key < p.1) ∧
          ∀ b ∈ beyond S (it.entry d.iter), b.1.sequence ≤ sequence → p.1 ≤ b.1.user_key)) := by
  rw [entry] at hp
  split_ifs at hp with hvalid
  cases hdir : d.direction with
  | kForward =>
    obtain ⟨e, hentry, hnewest, htype⟩ := hd.forward hvalid hdir
    simp only [hdir, hentry, map_some] at hp
    obtain rfl := some.inj hp
    exact ⟨⟨e, hnewest, htype, rfl⟩, hvalid, Or.inl ⟨rfl, e, hentry, rfl⟩⟩
  | kReverse =>
    obtain ⟨k, v, hsk, hsv, hlive, hless, hbeyond⟩ := hd.reverse hvalid hdir
    simp only [hdir, hsk, hsv, bind_some, map_some] at hp
    obtain rfl := some.inj hp
    exact ⟨hlive, hvalid, Or.inr ⟨rfl, hsk, hless, hbeyond⟩⟩

theorem searching_after {k : K} {x : Option (Entry K V)}
    (hbefore : ∀ b ∈ before S x, b.1.user_key ≤ k)
    (hbehind : ∀ b ∈ S, b ∉ before S x → b.1.sequence ≤ sequence → k ≤ b.1.user_key) :
    Searching S sequence (fun k' => k < k') true (some k) x :=
  ⟨fun b hb hwanted => absurd hwanted.1 (not_lt.2 (hbefore b hb)),
    fun _ _ hk' hnot => absurd ⟨hk', fun _ _ hs => some.inj hs ▸ hk'⟩ hnot,
    fun _ _ _ _ hlt => hlt rfl k rfl,
    fun _ _ hs b hb hnot hvisible => some.inj hs ▸ hbehind b hb hnot hvisible⟩

theorem next_spec (h : it.Iterates Prod.fst S inv) (hfin : S.Finite) (hinj : Set.InjOn Prod.fst S)
    (hfuel : S.ncard ≤ fuel) (hd : Inv it S sequence inv d)
    (hp : entry it d = some p) :
    ∃ d', next it sequence fuel d = some d' ∧ Inv it S sequence inv d' ∧
      IsFirst Prod.fst (live S sequence) (fun k => p.1 < k) (entry it d') := by
  obtain ⟨-, hvalid, ⟨hdir, e, hentry, hkey⟩ | ⟨hdir, hsk, hless, hbeyond⟩⟩ := hd.shown hp
  · have hsearch : Searching S sequence (fun k => p.1 < k) true (some e.1.user_key) (some e) := by
      rw [hkey]
      refine searching_after (fun b hb => ?_) fun b hb hnot _ => ?_
      · exact hkey ▸ InternalKey.user_key_le (hb.2 e rfl).le
      · exact hkey ▸ InternalKey.user_key_le (le_of_not_mem_before hb hnot)
    simp only [next, hvalid, if_true, hdir, hentry, bind_some]
    exact findNextUserEntry_spec h hfin hinj
      (d := ⟨d.iter, .kForward, true, some e.1.user_key, d.saved_value⟩) hd.iter rfl hentry hsearch
      ((Set.ncard_le_ncard (Set.sep_subset _ _) hfin).trans hfuel)
  · -- turn round: the position after the move is behind all smaller visible keys
    obtain ⟨iter, hmove, hinv, hbefore, hbehind⟩ : ∃ iter,
        (if (it.entry d.iter).isSome = true then it.next d.iter else it.seekToFirst d.iter) =
          some iter ∧ inv iter ∧ (∀ b ∈ before S (it.entry iter), b.1.user_key ≤ p.1) ∧
        ∀ b ∈ S, b ∉ before S (it.entry iter) → b.1.sequence ≤ sequence → p.1 ≤ b.1.user_key := by
      cases hx : it.entry d.iter with
      | none =>
        obtain ⟨iter, hiter, hinv, hfirst⟩ := h.seekToFirst d.iter hd.iter
        refine ⟨iter, hiter, hinv, fun b hb => ?_, fun b hb _ hvisible => ?_⟩
        · cases hx' : it.entry iter with
          | none =>
            rw [hx'] at hfirst
            exact absurd trivial (hfirst b hb.1)
          | some a =>
            rw [hx'] at hfirst
            exact absurd (hfirst.2.2 b hb.1 trivial) (not_le.2 (hb.2 a hx'))
        · exact hbeyond b ⟨hb, fun e he => absurd (hx.symm.trans he) (by simp)⟩ hvisible
      | some e =>
        obtain ⟨iter, hiter, hinv, hfirst⟩ := h.next d.iter e hd.iter hx
        refine ⟨iter, hiter, hinv, fun b hb => ?_, fun b hb hnot hvisible => ?_⟩
        · exact (InternalKey.user_key_le (le_of_mem_before hfirst b hb)).trans (hless e hx).le
        · refine hbeyond b ⟨hb, fun e' he' => ?_⟩ hvisible
          obtain rfl := some.inj (hx.symm.trans he')
          have hle := le_of_not_mem_before hb fun hbefore => hnot (before_next hfirst hbefore)
          refine hle.lt_of_ne fun heq => hnot ⟨hb, fun a ha => ?_⟩
          rw [ha] at hfirst
          exact heq ▸ hfirst.2.1
    simp only [next, hvalid, if_true, hdir, hmove, bind_some]
    have hsearch := searching_after (S := S) hbefore hbehind
    cases hx : it.entry iter with
    | none =>
      rw [hx] at hsearch
      exact ⟨_, rfl, ⟨hinv, fun hv => (by cases hv), fun hv => (by cases hv)⟩, hsearch.exhausted⟩
    | some e =>
      rw [hx, ← hsk] at hsearch
      exact findNextUserEntry_spec h hfin hinj
        (d := ⟨iter, .kForward, true, d.saved_key, d.saved_value⟩) hinv rfl hx hsearch
        ((Set.ncard_le_ncard (Set.sep_subset _ _) hfin).trans hfuel)

theorem prev_spec (h : it.Iterates Prod.fst S inv) (hfin : S.Finite) (hinj : Set.InjOn Prod.fst S)
    (hfuel : S.ncard ≤ fuel) (hd : Inv it S sequence inv d)
    (hp : entry it d = some p) :
    ∃ d', prev it sequence fuel d = some d' ∧ Inv it S sequence inv d' ∧
      IsLast Prod.fst (live S sequence) (fun k => k < p.1) (entry it d') := by
  have hW : ∀ k k' : K, k ≤ k' → k' < p.1 → k < p.1 := fun _ _ hle hlt => hle.trans_lt hlt
  obtain ⟨-, hvalid, ⟨hdir, e, hentry, hkey⟩ | ⟨hdir, -, hless, hbeyond⟩⟩ := hd.shown hp
  · obtain ⟨iter, hskip, hinv, hless, hpassed⟩ := skipBack_spec h hfin hinj hd.iter hentry le_rfl
      ((Set.ncard_le_ncard (Set.sep_subset _ _) hfin).trans hfuel)
    simp only [prev, hvalid, if_true, hdir, hentry, bind_some, hskip]
    rw [hkey] at hless hpassed
    cases hx : it.entry iter with
    | none =>
      rw [hx, beyond_none] at hpassed
      refine ⟨_, rfl, ⟨hinv, fun hv => (by cases hv), fun hv => (by cases hv)⟩, ?_⟩
      rintro q ⟨a, ha, -, -⟩ hlt
      exact absurd (ha.user_key ▸ hpassed a ha.mem) (not_le.2 hlt)
    | some a =>
      refine findPrevUserEntry_spec h hfin hinj hW hinv rfl hless (fun b hb _ => ?_) hfuel
      exact not_lt.2 (hpassed b hb)
  · simp only [prev, hvalid, if_true, hdir]
    exact findPrevUserEntry_spec h hfin hinj hW hd.iter hdir hless
      (fun b hb hvisible => not_lt.2 (hbeyond b hb hvisible)) hfuel

end DBIter

/-- **`DBIter` iterates the live keys.** -/
theorem iterates_dbIter (h : it.Iterates Prod.fst S inv) (hfin : S.Finite)
    (hinj : Set.InjOn Prod.fst S) (hfuel : S.ncard ≤ fuel) :
    (DBIter.iterator it sequence fuel).Iterates Prod.fst (DBIter.live S sequence)
      (DBIter.Inv it S sequence inv) where
  mem := fun d p hd hp => (hd.shown hp).1
  seekToFirst := by
    intro d hd
    obtain ⟨iter, hiter, hinv, hfirst⟩ := h.seekToFirst d.iter hd.iter
    simp only [DBIter.iterator, hiter, bind_some]
    refine DBIter.showFrom_spec h hfin hinj hfuel hinv rfl ?_ fun _ _ _ _ => trivial
    rintro b ⟨hb, hbefore⟩
    cases hx : it.entry iter with
    | none =>
      rw [hx] at hfirst
      exact absurd trivial (hfirst b hb)
    | some e =>
      rw [hx] at hfirst
      exact absurd (hfirst.2.2 b hb trivial) (not_le.2 (hbefore e hx))
  seekToLast := by
    intro d hd
    obtain ⟨iter, hiter, hinv, hlast⟩ := h.seekToLast d.iter hd.iter
    simp only [DBIter.iterator, hiter, bind_some]
    refine DBIter.findPrevUserEntry_spec h hfin hinj (fun _ _ _ _ => trivial) hinv rfl
      (fun _ _ => trivial) ?_ hfuel
    rintro b ⟨hb, hbeyond⟩
    cases hx : it.entry iter with
    | none =>
      rw [hx] at hlast
      exact absurd trivial (hlast b hb)
    | some e =>
      rw [hx] at hlast
      exact absurd (hlast.2.2 b hb trivial) (not_le.2 (hbeyond e hx))
  seek := by
    intro d target hd
    obtain ⟨iter, hiter, hinv, hfirst⟩ := h.seek d.iter (lookupKey target sequence) hd.iter
    simp only [DBIter.iterator, hiter, bind_some]
    refine DBIter.showFrom_spec h hfin hinj hfuel hinv rfl ?_ fun e he k hk => ?_
    · -- entries before the lookup key are too new, or their keys are smaller
      rintro b ⟨hb, hbefore⟩ htarget hvisible
      have hle : lookupKey target sequence ≤ b.1 := by
        rcases htarget.eq_or_lt with heq | hlt
        · exact lookupKey_le_iff.2 (Or.inr ⟨heq, hvisible⟩)
        · exact lookupKey_le_iff.2 (Or.inl hlt)
      cases hx : it.entry iter with
      | none =>
        rw [hx] at hfirst
        exact hfirst b hb hle
      | some e =>
        rw [hx] at hfirst
        exact absurd (hfirst.2.2 b hb hle) (not_le.2 (hbefore e hx))
    · have he : it.entry iter = some e := he
      rw [he] at hfirst
      exact (InternalKey.user_key_le hfirst.2.1).trans hk
  next := fun d p hd hp => DBIter.next_spec h hfin hinj hfuel hd hp
  prev := fun d p hd hp => DBIter.prev_spec h hfin hinj hfuel hd hp

end Bourbon
