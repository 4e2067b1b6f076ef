import Bourbon.Db.DbIter
import Bourbon.Db.Separation

/-!
# Scans

`DBImpl::NewIterator` merges the memtables and the table files of the current version and puts a
`DBIter` on top.

* `DBState.scan` : a full scan, forward or backward;
* `Arranged.scan_eq` : it delivers the values that `Get` finds in the same state;
* `scansAgree_iff` : with `MOD >= 7` it delivers addresses where `Get` returns values.

As in `Separation`, reads are those without models.
-/

namespace Bourbon

open List

open SortedIterator

variable {K V : Type*} [LinearOrder K]

namespace DBState

/-- The children of `NewInternalIterator`: the memtables, the files of level 0, and one
concatenating iterator for each other level that is not empty (`AddIterators`). -/
def children (s : DBState K V) : List (List (Entry K V)) :=
  s.mem :: (s.imm.toList ++ ((s.current 0).map (fun f => s.tables f.number) ++
    (((List.range kNumLevels).drop 1).filter fun level => !(s.current level).isEmpty).map
      fun level => (s.current level).flatMap fun f => s.tables f.number))

end DBState

/-- An iterator that has not been positioned. -/
def newCursor (entries : List (Entry K V)) : ListCursor (Entry K V) := ⟨entries, entries.length⟩

/-- `NewDBIterator`. -/
def newDBIterator {σ : Type*} (iter : σ) : DBIter σ K V := ⟨iter, .kForward, false, none, none⟩

/-- A full scan in a direction. -/
def fullScan {σ α ι : Type*} (it : SortedIterator σ α ι) (fuel : ℕ) (s : σ) :
    Direction → Option (List α)
  | .kForward => it.forward fuel s
  | .kReverse => it.backward fuel s

/-- A full scan with the iterator of `NewIterator`.  A single child is not merged. -/
def DBState.scan (s : DBState K V) (snapshot : ℕ) (direction : Direction) :
    Option (List (K × V)) :=
  let entries := list (Prod.fst : Entry K V → InternalKey K)
  let fuel := (s.children.map List.length).sum
  match s.children with
  | [child] =>
    fullScan (DBIter.iterator entries snapshot fuel) fuel
      (newDBIterator (newCursor child)) direction
  | children =>
    fullScan (DBIter.iterator (MergingIterator.iterator entries Prod.fst) snapshot fuel) fuel
      (newDBIterator ⟨children.map newCursor, none, .kForward⟩) direction

/-! ### Iterators over the entries of a state -/

namespace Arranged

variable {s : DBState K V}

theorem children_sorted (h : Arranged s) :
    ∀ child ∈ s.children, child.Pairwise fun a b => a.1 < b.1 := by
  intro child hchild
  simp only [DBState.children, mem_cons, mem_append, mem_map, mem_filter,
    Option.mem_toList] at hchild
  rcases hchild with rfl | himm | ⟨f, hf, rfl⟩ | ⟨level, ⟨hlevel, -⟩, rfl⟩
  · exact h.mem_sorted
  · exact h.imm_sorted child himm
  · exact (h.table 0 f hf).sorted
  · have hne : level ≠ 0 := by
      rintro rfl
      revert hlevel
      decide
    exact (ordered_iff_pairwise (h.table level)).1 (h.ordered level hne)

theorem zero_ne (h : Arranged s) : (s.current 0).Pairwise fun f g =>
    ∀ a ∈ s.tables f.number, ∀ b ∈ s.tables g.number, a.1 ≠ b.1 := by
  refine h.distinct.imp_of_mem fun {f g} hf hg hne a ha b hb => ?_
  rcases lt_or_gt_of_ne hne with hlt | hlt
  · exact (h.zero g hg f hf hlt b hb a ha).ne.symm
  · exact (h.zero f hf g hg hlt a ha b hb).ne

theorem children_apart (h : Arranged s) :
    s.children.Pairwise fun c c' => ∀ a ∈ c, ∀ b ∈ c', a.1 ≠ b.1 := by
  -- a smaller sequence number is another key
  have hseq : ∀ {a b : Entry K V}, b.1.sequence < a.1.sequence → a.1 ≠ b.1 :=
    fun hlt heq => hlt.ne (congrArg InternalKey.sequence heq).symm
  -- the children behind the memtables are in the levels
  have hlevels : ∀ c ∈ (s.current 0).map (fun f => s.tables f.number) ++
      (((List.range kNumLevels).drop 1).filter fun level => !(s.current level).isEmpty).map
        (fun level => (s.current level).flatMap fun f => s.tables f.number),
      ∀ b ∈ c, ∃ level, b ∈ s.levelEntries level := by
    intro c hc b hb
    rcases mem_append.1 hc with hc | hc
    · obtain ⟨f, hf, rfl⟩ := mem_map.1 hc
      exact ⟨0, f, hf, hb⟩
    · obtain ⟨level, -, rfl⟩ := mem_map.1 hc
      obtain ⟨f, hf, hb⟩ := mem_flatMap.1 hb
      exact ⟨level, f, hf, hb⟩
  have himm : ∀ imm ∈ s.imm.toList, ∀ a ∈ imm, a ∈ s.immEntries :=
    fun imm hi a ha => ⟨imm, Option.mem_toList.1 hi, ha⟩
  rw [DBState.children, pairwise_cons, pairwise_append, pairwise_append]
  refine ⟨fun c hc a ha b hb => ?_, ?_, ⟨?_, ?_, ?_⟩, fun imm hi c hc a ha b hb => ?_⟩
  · rcases mem_append.1 hc with hc | hc
    · exact hseq (h.mem_imm a ha b (himm c hc b hb))
    · obtain ⟨level, hb⟩ := hlevels c hc b hb
      exact hseq (h.mem_level a ha level b hb)
  · cases s.imm with
    | none => exact List.Pairwise.nil
    | some imm => exact pairwise_singleton _ imm
  · exact pairwise_map.2 h.zero_ne
  · refine pairwise_map.2 (((pairwise_lt_range.drop).filter _).imp ?_)
    intro level level' hlt a ha b hb
    obtain ⟨f, hf, ha⟩ := mem_flatMap.1 ha
    obtain ⟨g, hg, hb⟩ := mem_flatMap.1 hb
    exact (h.levels level level' hlt a ⟨f, hf, ha⟩ b ⟨g, hg, hb⟩).ne
  · intro c hc c' hc' a ha b hb
    obtain ⟨f, hf, rfl⟩ := mem_map.1 hc
    obtain ⟨level, hlevel, rfl⟩ := mem_map.1 hc'
    obtain ⟨g, hg, hb⟩ := mem_flatMap.1 hb
    have hpos : 0 < level := by
      refine Nat.pos_of_ne_zero fun hzero => ?_
      rw [hzero] at hlevel
      exact absurd (mem_filter.1 hlevel).1 (by decide)
    exact (h.levels 0 level hpos a ⟨f, hf, ha⟩ b ⟨g, hg, hb⟩).ne
  · obtain ⟨level, hb⟩ := hlevels c hc b hb
    exact hseq (h.imm_level a (himm imm hi a ha) level b hb)

end Arranged

omit [LinearOrder K] in
theorem DBState.Shallow.mem_children {s : DBState K V} (hshallow : s.Shallow) (e : Entry K V) :
    (∃ child ∈ s.children, e ∈ child) ↔ e ∈ s.entries := by
  rw [hshallow.entries_eq]
  simp only [DBState.children, mem_cons, mem_append, mem_map, mem_filter,
    Option.mem_toList]
  constructor
  · rintro ⟨child, rfl | himm | ⟨f, hf, rfl⟩ | ⟨level, ⟨hlevel, -⟩, rfl⟩, he⟩
    · exact Or.inl he
    · exact Or.inr (Or.inl ⟨child, himm, he⟩)
    · exact Or.inr (Or.inr ⟨0, by decide, f, hf, he⟩)
    · obtain ⟨f, hf, he⟩ := mem_flatMap.1 he
      exact Or.inr (Or.inr ⟨level, mem_range.1 (mem_of_mem_drop hlevel), f, hf, he⟩)
  · rintro (he | ⟨imm, himm, he⟩ | ⟨level, hlevel, f, hf, he⟩)
    · exact ⟨s.mem, Or.inl rfl, he⟩
    · exact ⟨imm, Or.inr (Or.inl himm), he⟩
    · rcases level.eq_zero_or_pos with rfl | hpos
      · exact ⟨_, Or.inr (Or.inr (Or.inl ⟨f, hf, rfl⟩)), he⟩
      · refine ⟨_, Or.inr (Or.inr (Or.inr ⟨level, ⟨?_, ?_⟩, rfl⟩)), mem_flatMap.2 ⟨f, hf, he⟩⟩
        · exact mem_drop_range.2 ⟨hpos, hlevel⟩
        · have hne := ne_nil_of_mem hf
          simpa using hne

/-! ### Scans of sorted children -/

theorem DBIter.live_subset (S : Set (Entry K V)) (sequence : ℕ) :
    DBIter.live S sequence ⊆ (fun e : Entry K V => (e.1.user_key, e.2)) '' S := by
  rintro ⟨k, v⟩ ⟨e, he, -, hv⟩
  exact ⟨e, he.mem, Prod.ext he.user_key hv⟩

theorem DBIter.live_injOn {S : Set (Entry K V)} (hinj : Set.InjOn Prod.fst S) (sequence : ℕ) :
    Set.InjOn Prod.fst (DBIter.live S sequence) := by
  rintro ⟨k, v⟩ ⟨e, he, -, rfl⟩ ⟨k', v'⟩ ⟨e', he', -, rfl⟩ heq
  obtain rfl : k = k' := heq
  have heq : e = e' := hinj he.mem he'.mem (le_antisymm
    (he.first e' he'.mem he'.user_key he'.visible) (he'.first e he.mem he.user_key he.visible))
  rw [heq]

/-- **A full scan of `DBIter` delivers the live keys.** -/
theorem mem_fullScan {σ : Type*} {it : SortedIterator σ (Entry K V) (InternalKey K)}
    {S : Set (Entry K V)} {inv : σ → Prop} (h : it.Iterates Prod.fst S inv) (hfin : S.Finite)
    (hinj : Set.InjOn Prod.fst S) {fuel : ℕ} (hfuel : S.ncard ≤ fuel) {iter : σ} (hiter : inv iter)
    (sequence : ℕ) (direction : Direction) :
    ∃ l, fullScan (DBIter.iterator it sequence fuel) fuel (newDBIterator iter) direction = some l ∧
      ∀ k v, (k, v) ∈ l ↔ Reads S k sequence (some v) := by
  have hd : DBIter.Inv it S sequence inv (newDBIterator iter) :=
    ⟨hiter, fun hv => (by cases hv), fun hv => (by cases hv)⟩
  have hlive := (hfin.image fun e : Entry K V => (e.1.user_key, e.2)).subset
    (DBIter.live_subset S sequence)
  have hcard : (DBIter.live S sequence).ncard ≤ fuel :=
    ((Set.ncard_le_ncard (DBIter.live_subset S sequence) (hfin.image _)).trans
      (Set.ncard_image_le hfin)).trans hfuel
  have hdb : (DBIter.iterator it sequence fuel).Iterates Prod.fst (DBIter.live S sequence)
      (DBIter.Inv it S sequence inv) := iterates_dbIter h hfin hinj hfuel
  cases direction with
  | kForward =>
    obtain ⟨l, hl, -, hmem⟩ := hdb.forward hlive (DBIter.live_injOn hinj sequence) hd hcard
    exact ⟨l, hl, fun k v => hmem (k, v)⟩
  | kReverse =>
    obtain ⟨l, hl, -, hmem⟩ := hdb.backward hlive (DBIter.live_injOn hinj sequence) hd hcard
    exact ⟨l, hl, fun k v => hmem (k, v)⟩

section

variable {children : List (List (Entry K V))}

theorem injOn_children (hsorted : ∀ child ∈ children, child.Pairwise fun a b => a.1 < b.1)
    (hapart : children.Pairwise fun c c' => ∀ a ∈ c, ∀ b ∈ c', a.1 ≠ b.1) :
    Set.InjOn Prod.fst {e : Entry K V | ∃ child ∈ children, e ∈ child} := by
  rintro a ⟨c, hc, ha⟩ b ⟨c', hc', hb⟩ heq
  by_cases hcc : c = c'
  · subst hcc
    exact eq_of_sorted (hsorted c hc) ha hb heq
  · have : Std.Symm fun c c' : List (Entry K V) => ∀ a ∈ c, ∀ b ∈ c', a.1 ≠ b.1 :=
      ⟨fun _ _ h b hb a ha hba => h a ha b hb hba.symm⟩
    exact absurd heq (hapart.forall hc hc' hcc a ha b hb)

theorem ncard_children (children : List (List (Entry K V))) :
    {e : Entry K V | ∃ child ∈ children, e ∈ child}.Finite ∧
      {e : Entry K V | ∃ child ∈ children, e ∈ child}.ncard ≤ (children.map List.length).sum := by
  classical
  have heq : {e : Entry K V | ∃ child ∈ children, e ∈ child} = ↑children.flatten.toFinset := by
    ext e
    simp
  rw [heq, Set.ncard_coe_finset, ← length_flatten]
  exact ⟨Finset.finite_toSet _, toFinset_card_le _⟩

theorem iterates_merging_lists (hsorted : ∀ child ∈ children, child.Pairwise fun a b => a.1 < b.1)
    (hapart : children.Pairwise fun c c' => ∀ a ∈ c, ∀ b ∈ c', a.1 ≠ b.1) :
    ∃ inv, (MergingIterator.iterator (list (Prod.fst : Entry K V → InternalKey K))
        Prod.fst).Iterates Prod.fst {e | ∃ child ∈ children, e ∈ child} inv ∧
      inv ⟨children.map newCursor, none, .kForward⟩ := by
  have hiter : ∀ i < children.length,
    (list (Prod.fst : Entry K V → InternalKey K)).Iterates Prod.fst
      {e | e ∈ children.getD i []} fun s => s.entries = children.getD i [] := fun i hi => by
    rw [getD_eq_getElem _ _ hi]
    exact iterates_list (hsorted _ (getElem_mem hi))
  have hne : MergingIterator.Apart (Prod.fst : Entry K V → InternalKey K)
      fun i => {e | e ∈ children.getD i []} := by
    have hlt : ∀ i j, i < j → ∀ a ∈ children.getD i [], ∀ b ∈ children.getD j [], a.1 ≠ b.1 := by
      intro i j hij a ha b hb
      by_cases hj : j < children.length
      · rw [getD_eq_getElem _ _ (hij.trans hj)] at ha
        rw [getD_eq_getElem _ _ hj] at hb
        exact pairwise_iff_getElem.1 hapart i j _ hj hij a ha b hb
      · rw [getD_eq_default _ _ (not_lt.1 hj)] at hb
        cases hb
    intro i j hij a ha b hb
    rcases lt_or_gt_of_ne hij with hij | hij
    · exact hlt i j hij a ha b hb
    · exact (hlt j i hij b hb a ha).symm
  refine ⟨_, MergingIterator.union_getD children ▸ iterates_merging hne hiter, length_map _,
    fun i c hc => ?_,
    fun i hi => (by cases hi)⟩
  rw [List.getElem?_map] at hc
  obtain ⟨child, hchild, rfl⟩ := Option.map_eq_some_iff.1 hc
  rw [getD_eq_getElem?_getD, hchild]
  rfl

end

/-- **A scan delivers what `Get` finds**, in both directions. -/
theorem Arranged.scan_eq {s : DBState K V} (h : Arranged s) (hshallow : s.Shallow) (snapshot : ℕ)
    (direction : Direction) :
    ∃ l, s.scan snapshot direction = some l ∧ ∀ k v, (k, v) ∈ l ↔ s.get k snapshot = some v := by
  have hsorted := h.children_sorted
  have hapart := h.children_apart
  obtain ⟨hfin, hcard⟩ := ncard_children s.children
  have hinj := injOn_children hsorted hapart
  have hset : {e : Entry K V | ∃ child ∈ s.children, e ∈ child} = s.entries :=
    Set.ext hshallow.mem_children
  have hread : ∀ k v, Reads {e : Entry K V | ∃ child ∈ s.children, e ∈ child} k snapshot (some v) ↔
      s.get k snapshot = some v := fun k v => by
    rw [hset, h.reads_iff hshallow, eq_comm]
  have hscan : ∃ l, s.scan snapshot direction = some l ∧ ∀ k v, (k, v) ∈ l ↔
      Reads {e : Entry K V | ∃ child ∈ s.children, e ∈ child} k snapshot (some v) := by
    unfold DBState.scan
    split
    · next child hchild =>
      rw [hchild] at hsorted hfin hcard hinj ⊢
      have hone : {e : Entry K V | ∃ c ∈ [child], e ∈ c} = {e | e ∈ child} := by
        ext e
        simp
      rw [hone] at hfin hcard hinj ⊢
      exact mem_fullScan (iterates_list (hsorted child mem_cons_self)) hfin hinj hcard rfl
        snapshot direction
    · obtain ⟨inv, hiter, hinv⟩ := iterates_merging_lists hsorted hapart
      exact mem_fullScan hiter hfin hinj hcard hinv snapshot direction
  obtain ⟨l, hl, hmem⟩ := hscan
  exact ⟨l, hl, fun k v => (hmem k v).trans (hread k v)⟩

/-! ### All modes -/

/-- The calls of `Put` and `Delete`, and what the background thread does. -/
inductive ScanAction where
  | put (key val : Bytes)
  | delete (key : Bytes)
  | background (a : DBAction Bytes Bytes)

/-- Memtable switches, flushes and automatic compactions. -/
def DBAction.isBackground : DBAction K V → Bool
  | .write _ => false
  | .manualCompaction _ _ _ _ => false
  | _ => true

/-- One step with the given `MOD`. -/
def scanStep (mod : ℕ) (o : DBOptions Bytes Bytes) (s : SeparatedDB) :
    ScanAction → Option SeparatedDB
  | .put key val => if 7 ≤ mod then s.put key val else s.write [.put key val]
  | .delete key => s.delete key
  | .background a =>
    if a.isBackground then (dbStep o s.db a).map fun db => { s with db := db } else none

namespace SeparatedDB

/-- `DBImpl::Get` at a snapshot, on the read path without models. -/
def getAt (mod : ℕ) (s : SeparatedDB) (key : Bytes) (snapshot : ℕ) : Option (Option Bytes) :=
  if 7 ≤ mod then s.vlog.resolve (s.db.get key snapshot) else some (s.db.get key snapshot)

/-- A full scan in either direction delivers the keys for which `Get` succeeds, with their
values. -/
def ScansAgree (mod : ℕ) (s : SeparatedDB) (snapshot : ℕ) : Prop :=
  ∀ direction, ∃ l, s.db.scan snapshot direction = some l ∧
    ∀ key val, (key, val) ∈ l ↔ s.getAt mod key snapshot = some (some val)

end SeparatedDB

/-- The invariant of the database. -/
structure Sound (o : DBOptions Bytes Bytes) (s : SeparatedDB) : Prop where
  consistent : Consistent o s.db
  automatic : Automatic s.db
  leveled : Leveled s.db

namespace Sound

variable {mod : ℕ} {o : DBOptions Bytes Bytes} {s s' : SeparatedDB}

theorem dbStep (h : Sound o s) {a : DBAction Bytes Bytes} (hauto : a.isManual = false)
    {db : DBState Bytes Bytes} (hs : Bourbon.dbStep o s.db a = some db) (vlog : VLog) :
    Sound o ⟨db, vlog⟩ :=
  ⟨h.consistent.step (h.automatic.flushApart a) hs, h.automatic.step h.consistent hauto hs,
    h.leveled.step h.consistent hs⟩

theorem write (h : Sound o s) {updates : List (BatchOp Bytes Bytes)}
    (hs : s.write updates = some s') : Sound o s' := by
  rw [SeparatedDB.write] at hs
  obtain ⟨db, hdb, rfl⟩ := Option.map_eq_some_iff.1 hs
  exact h.dbStep (a := .write updates) rfl hdb s.vlog

theorem step (h : Sound o s) {a : ScanAction} (hs : scanStep mod o s a = some s') : Sound o s' := by
  cases a with
  | put key val =>
    simp only [scanStep] at hs
    split_ifs at hs
    · rw [SeparatedDB.put] at hs
      obtain ⟨db, hdb, rfl⟩ := Option.map_eq_some_iff.1 hs
      exact h.dbStep (a := .write _) rfl hdb _
    · exact h.write hs
  | delete key => exact h.write hs
  | background a =>
    simp only [scanStep] at hs
    split_ifs at hs with hback
    obtain ⟨db, hdb, rfl⟩ := Option.map_eq_some_iff.1 hs
    refine h.dbStep (a := a) ?_ hdb s.vlog
    cases a <;> first | rfl | cases hback

theorem init (o : DBOptions Bytes Bytes) (file : Bytes) :
    Sound o ⟨DBState.init, VLog.new file⟩ :=
  ⟨Consistent.init o, fun st hst => (by cases hst), fun _ _ => rfl, fun st hst => (by cases hst)⟩

end Sound

/-- **Scans agree with point reads as long as stored values are values.** -/
theorem scansAgree_iff (mod : ℕ) (o : DBOptions Bytes Bytes) (file : Bytes) (as : List ScanAction)
    (s : SeparatedDB)
    (hrun : Steps.run (scanStep mod o) ⟨DBState.init, VLog.new file⟩ as = some s) (snapshot : ℕ) :
    s.ScansAgree mod snapshot ↔ mod < 7 ∨ ∀ key value, s.db.get key snapshot = some value →
      s.vlog.readValue value = some value := by
  have hsound : Sound o s := by
    exact Steps.invariant (fun _ _ _ h _ hs => h.step hs) (Sound.init o file)
      (Steps.meets_true _ _) hrun
  have hscan := hsound.consistent.arranged.scan_eq hsound.leveled.shallow snapshot
  constructor
  · intro hagree
    by_cases hmod : mod < 7
    · exact Or.inl hmod
    refine Or.inr fun key value hvalue => ?_
    obtain ⟨l, hl, hmem⟩ := hagree .kForward
    obtain ⟨l', hl', hmem'⟩ := hscan .kForward
    obtain rfl := Option.some.inj (hl.symm.trans hl')
    have hget := (hmem key value).1 ((hmem' key value).2 hvalue)
    rw [SeparatedDB.getAt, if_pos (not_lt.1 hmod), hvalue] at hget
    obtain ⟨v, hv, heq⟩ := Option.map_eq_some_iff.1 hget
    rw [hv, Option.some.inj heq]
  · intro hvalues direction
    obtain ⟨l, hl, hmem⟩ := hscan direction
    refine ⟨l, hl, fun key val => (hmem key val).trans ?_⟩
    rw [SeparatedDB.getAt]
    split_ifs with hmod
    · cases hget : s.db.get key snapshot with
      | none => simp [VLog.resolve]
      | some value =>
        have hread := (hvalues.resolve_left (not_lt.2 hmod)) key value hget
        simp [VLog.resolve, hread]
    · exact Option.some_inj.symm

namespace ScanExample

/-- `a` and `b` are flushed, `b` is deleted and `c` written. -/
def actions : List ScanAction :=
  [.put [97] [1], .put [98] [2], .background .switchMemTable, .background .compactMemTable,
    .delete [98], .put [99] [3]]

end ScanExample

open ScanExample in
theorem scansAgree_iff_flushed :
    ∃ s, Steps.run (scanStep 0 smallTables) ⟨DBState.init, VLog.new []⟩ actions = some s ∧
      s.db.scan 4 .kReverse = some [([99], [3]), ([97], [1])] ∧ s.ScansAgree 0 4 := by
  have h : (Steps.run (scanStep 0 smallTables) ⟨DBState.init, VLog.new []⟩ actions).map
      (fun s => s.db.scan 4 .kReverse) = some (some [([99], [3]), ([97], [1])]) := by
    decide +kernel
  obtain ⟨s, hs, hscan⟩ := Option.map_eq_some_iff.1 h
  exact ⟨s, hs, hscan, (scansAgree_iff 0 smallTables [] actions s hs 4).2 (Or.inl (by decide))⟩

open ScanExample in
/-- **With `MOD >= 7` a scan delivers the address** of the value that `Get` returns. -/
theorem scan_delivers_address :
    ∃ s, Steps.run (scanStep 8 smallTables) ⟨DBState.init, VLog.new []⟩ [.put [107] [1]] = some s ∧
      s.db.scan 1 .kForward = some [([107], storedValue 3 1)] ∧
      s.getAt 8 [107] 1 = some (some [1]) ∧ ¬ s.ScansAgree 8 1 := by
  have h : (Steps.run (scanStep 8 smallTables) ⟨DBState.init, VLog.new []⟩ [.put [107] [1]]).map
      (fun s => (s.db.scan 1 .kForward, s.getAt 8 [107] 1)) =
        some (some [([107], storedValue 3 1)], some (some [1])) := by decide +kernel
  obtain ⟨s, hs, hpair⟩ := Option.map_eq_some_iff.1 h
  obtain ⟨hscan, hget⟩ := Prod.mk.inj hpair
  refine ⟨s, hs, hscan, hget, fun hagree => ?_⟩
  obtain ⟨l, hl, hmem⟩ := hagree .kForward
  obtain rfl := Option.some.inj (hscan.symm.trans hl)
  have hin := (hmem [107] [1]).2 hget
  revert hin
  decide

end Bourbon
