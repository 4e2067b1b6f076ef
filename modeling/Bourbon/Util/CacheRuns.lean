import Bourbon.Lib.Steps
import Bourbon.Util.Cache

/-!
# Sequences of calls of a cache

`CacheRun` is a shard of the cache with what its clients know: the key and the value of every
`Insert`, how many references of a handle are held, and the latest `Insert` of a key that has not
been erased.  The handle of the first `Insert` has address 2, and so on.

* `CacheRun.Sound` : the invariant, with the entries in the cache and the two lists;
* `CacheRun.Sound.step` : every call keeps it, and returns;
* `CacheRun.invariants` : usage, lists, lookups and deleter calls after any sequence of calls.

The reference count has 32 bits: after `2 ^ 32` lookups an entry counts as unused
(`CacheRun.deleted_while_held`).
-/

namespace Bourbon

open List Function Option

open scoped List

open LRUCache

/-- The calls of a shard. -/
inductive CacheOp (K V : Type*) where
  | insert (key : K) (value : V) (charge : ℕ)
  | lookup (key : K)
  | release (handle : ℕ)
  | erase (key : K)
  | prune

/-- A shard and what its clients know. -/
structure CacheRun (K V : Type*) where
  cache : LRUCache K V
  /-- Key and value of every `Insert`. -/
  inserted : List (K × V)
  /-- The references of clients. -/
  held : ℕ → ℕ
  /-- The handle of the latest `Insert` of a key, unless it has been erased. -/
  latest : K → Option ℕ

namespace CacheRun

variable {K V : Type*} [DecidableEq K]

/-- A new cache. -/
def init (capacity : ℕ) : CacheRun K V := ⟨.new capacity, [], fun _ => 0, fun _ => none⟩

/-- A call. -/
def step (hash : K → ℕ) (o : CacheRun K V) : CacheOp K V → Option (CacheRun K V)
  | .insert key value charge =>
    (o.cache.insert key (hash key) value charge).map fun p =>
      ⟨p.1, o.inserted ++ [(key, value)], update o.held p.2 (o.held p.2 + 1),
        update o.latest key (some p.2)⟩
  | .lookup key =>
    (o.cache.lookup key (hash key)).map fun p =>
      { o with
        cache := p.1
        held := match p.2 with
          | some e => update o.held e (o.held e + 1)
          | none => o.held }
  | .release e =>
    (o.cache.release e).map fun cache =>
      { o with cache := cache, held := update o.held e (o.held e - 1) }
  | .erase key =>
    (o.cache.erase key (hash key)).map fun cache =>
      { o with cache := cache, latest := update o.latest key none }
  | .prune => o.cache.prune.map fun cache => { o with cache := cache }

/-- Handles are released only while they are held, no handle is held `2 ^ 32 - 2` times, and there
is room in the hash table. -/
def Allowed (o : CacheRun K V) (op : CacheOp K V) : Prop :=
  (∀ e, op = .release e → 0 < o.held e) ∧ (∀ e, o.held e + 2 < 2 ^ 32) ∧
    o.cache.table.elems < 2 ^ 31

/-- The handle of a `Release` is held. -/
def releasesHeld (o : CacheRun K V) : CacheOp K V → Bool
  | .release e => decide (0 < o.held e)
  | _ => true

theorem held_step {hash : K → ℕ} {o o' : CacheRun K V} {op : CacheOp K V}
    (hs : step hash o op = some o') (e : ℕ) : o'.held e ≤ o.held e + 1 := by
  have hupdate : ∀ e' n, n ≤ o.held e' + 1 → update o.held e' n e ≤ o.held e + 1 := by
    intro e' n hn
    rw [update_apply]
    split_ifs with heq
    · rw [heq]
      exact hn
    · exact Nat.le_succ _
  cases op with
  | insert key value charge =>
    obtain ⟨p, -, rfl⟩ := map_eq_some_iff.1 hs
    exact hupdate _ _ le_rfl
  | lookup key =>
    obtain ⟨⟨cache, found⟩, -, rfl⟩ := map_eq_some_iff.1 hs
    cases found with
    | none => exact Nat.le_succ _
    | some e' => exact hupdate _ _ le_rfl
  | release e' =>
    obtain ⟨cache, -, rfl⟩ := map_eq_some_iff.1 hs
    exact hupdate _ _ (by omega)
  | erase key =>
    obtain ⟨cache, -, rfl⟩ := map_eq_some_iff.1 hs
    exact Nat.le_succ _
  | prune =>
    obtain ⟨cache, -, rfl⟩ := map_eq_some_iff.1 hs
    exact Nat.le_succ _

/-- In a short run, no reference count comes near its limit. -/
theorem meets_of_short {hash : K → ℕ} {o : CacheRun K V} {ops : List (CacheOp K V)} {n : ℕ}
    (h : Steps.Meets (step hash) (fun o op => o.releasesHeld op = true ∧
      o.cache.table.elems < 2 ^ 31) o ops) (hheld : ∀ e, o.held e ≤ n)
    (hn : n + ops.length + 1 < 2 ^ 32) : Steps.Meets (step hash) Allowed o ops := by
  induction ops generalizing o n with
  | nil => trivial
  | cons op ops ih =>
    rw [List.length_cons] at hn
    obtain ⟨⟨hrelease, hroom⟩, hrest⟩ := h
    refine ⟨⟨?_, fun e => ?_, hroom⟩, fun o' ho' => ?_⟩
    · rintro e rfl
      exact of_decide_eq_true hrelease
    · have := hheld e
      omega
    · refine ih (hrest o' ho') (n := n + 1) (fun e => ?_) (by omega)
      have := held_step ho' e
      have := hheld e
      omega

/-! ### The invariant -/

/-- The entries `cached` are in the cache and in the hash table, on the two lists, and are what the
clients expect. -/
structure Sound (hash : K → ℕ) (o : CacheRun K V) (cached lru in_use : List ℕ) : Prop where
  keeps : Keeps hash o.inserted o.held o.cache cached lru in_use
  table : o.cache.table.Holds o.cache.heap hash cached
  latest : ∀ k e, (o.latest k = some e ∧ e ∉ o.cache.evicted) ↔
    e ∈ cached ∧ ∃ h, o.cache.heap e = some h ∧ h.key = k
  latest_lt : ∀ k e, o.latest k = some e → e < o.cache.next_handle
  evicted_lt : ∀ e ∈ o.cache.evicted, e < o.cache.next_handle
  uncached : o.cache.capacity = 0 → cached = []

section Sound

variable {hash : K → ℕ} {o : CacheRun K V} {cached lru in_use rest : List ℕ} {e : ℕ}

omit [DecidableEq K] in
theorem sound_init (capacity : ℕ) : Sound hash (init capacity : CacheRun K V) [] [] [] where
  keeps := ⟨rfl, lists_new, handles_new⟩
  table := HandleTable.holds_new
  latest := by simp [init]
  latest_lt := by simp [init]
  evicted_lt := by simp [init, LRUCache.new]
  uncached := fun _ => rfl

omit [DecidableEq K] in
theorem holds_of_heap_eq {t : HandleTable} {heap heap' : ℕ → Option (LRUHandle K V)}
    (ht : t.Holds heap hash rest) (hheap : ∀ e ∈ rest, heap' e = heap e) :
    t.Holds heap' hash rest :=
  ht.congr fun e he h hh => ⟨h, (hheap e he).trans hh, rfl, rfl⟩

omit [DecidableEq K] in
theorem Sound.handle_lt (h : Sound hash o cached lru in_use) (he : e ∈ cached) :
    e < o.cache.next_handle := by
  obtain ⟨g, hg⟩ := h.keeps.handles.allocated e he
  have hd := h.keeps.handles.describes e g hg
  have hlt := (List.getElem?_eq_some_iff.1 hd.inserted).1
  rw [h.keeps.next_handle]
  omega

/-- **An entry is evicted.** -/
theorem Sound.evictOldest (h : Sound hash o cached lru in_use) (hne : lru ≠ []) :
    ∃ s' rest, o.cache.evictOldest = some s' ∧ s'.capacity = o.cache.capacity ∧
      Sound hash { o with cache := s' } rest lru.tail in_use := by
  obtain ⟨e, l, rfl⟩ := exists_cons_of_ne_nil hne
  have hmem : e ∈ e :: l := mem_cons_self
  obtain ⟨hc, hzero⟩ := (h.keeps.lists.mem_lru e).1 hmem
  obtain ⟨g, hg, hin, hrefs⟩ := h.keeps.mem_of_zero hmem
  have hd := h.keeps.handles.describes e g hg
  obtain ⟨t', r, rest, hremove, htaken, ht'⟩ := h.table.remove_spec g.key
  rw [← hd.hash] at hremove
  -- the table finds this very entry
  obtain rfl : r = some e := by
    cases r with
    | none => exact absurd rfl (htaken.2 e hc g hg)
    | some e' =>
      obtain ⟨hperm, g', hg', hkey'⟩ := htaken
      rw [h.table.distinct.keys e' (hperm.mem_iff.2 mem_cons_self) e hc g' g hg' hg hkey']
  have hperm : cached.Perm (e :: rest) := htaken.1
  have hout : e ∉ rest := (nodup_cons.1 (hperm.nodup_iff.1 h.keeps.handles.nodup)).1
  have hkeeps : Keeps hash o.inserted o.held
      { o.cache with table := t', evicted := o.cache.evicted ++ [e] } cached (e :: l) in_use :=
    ⟨h.keeps.next_handle, h.keeps.lists, h.keeps.handles⟩
  obtain ⟨s', hs', hframe, hk'⟩ := hkeeps.finishErase hperm
  have hnotuse : e ∉ in_use := fun hu => ((h.keeps.lists.mem_in_use e).1 hu).2.ne' hzero
  rw [erase_cons_head, erase_of_not_mem hnotuse] at hk'
  have hnext : s'.next_handle = o.cache.next_handle := by
    rw [hk'.next_handle, h.keeps.next_handle]
  have htable : s'.table = t' := hframe.table
  have hevicted : s'.evicted = o.cache.evicted ++ [e] := hframe.evicted
  refine ⟨s', rest, ?_, hframe.capacity, hk', ?_, fun k e' => ?_, fun k e' he' => ?_,
    fun e' he' => ?_, fun hcap => ?_⟩
  · rw [LRUCache.evictOldest, h.keeps.lists.lru_list.next_head, hg, bind_some, if_pos hrefs,
      hremove]
    exact hs'
  · simp only [htable]
    exact holds_of_heap_eq ht' fun e' he' => hframe.heap e' fun heq => hout (heq ▸ he')
  · have hold := h.latest k e'
    rw [hperm.mem_iff, mem_cons] at hold
    simp only [hevicted, mem_append, mem_singleton, not_or]
    by_cases heq : e' = e
    · subst heq
      exact iff_of_false (fun hx => hx.2.2 rfl) fun hx => hout hx.1
    · rw [hframe.heap e' heq]
      simp only [heq, false_or] at hold
      rw [← hold]
      simp only [heq, not_false_eq_true, and_true]
  · simp only [hnext]
    exact h.latest_lt k e' he'
  · simp only [hevicted, mem_append, mem_singleton] at he'
    simp only [hnext]
    rcases he' with he' | rfl
    · exact h.evicted_lt e' he'
    · exact h.handle_lt hc
  · rw [h.uncached (hframe.capacity.symm.trans hcap)] at hc
    exact absurd hc not_mem_nil

/-- **The loops that evict entries** end, and keep the invariant. -/
theorem Sound.evictWhile (p : LRUCache K V → Bool) (rounds : ℕ)
    (h : Sound hash o cached lru in_use) (hrounds : lru.length < rounds) :
    ∃ s' cached' lru', evictWhile p rounds o.cache = some s' ∧ s'.capacity = o.cache.capacity ∧
      Sound hash { o with cache := s' } cached' lru' in_use ∧ (p s' = false ∨ lru' = []) := by
  induction rounds generalizing o cached lru with
  | zero => omega
  | succ rounds ih =>
    rw [LRUCache.evictWhile]
    have hhead := h.keeps.lists.lru_list.next_head_eq
    by_cases hgo : p o.cache = true ∧ lru ≠ []
    · have hcond : (p o.cache && o.cache.links.next lruHead != lruHead) = true := by
        rw [hgo.1, Bool.true_and, bne_iff_ne, ne_eq, hhead]
        exact hgo.2
      obtain ⟨s₁, rest, hs₁, hcap₁, h₁⟩ := h.evictOldest hgo.2
      have hlen : lru.tail.length < rounds := by
        have := length_pos_iff.2 hgo.2
        rw [length_tail]
        omega
      obtain ⟨s', cached', lru', hs', hcap, h', hstop⟩ := ih h₁ hlen
      rw [if_pos hcond, hs₁, bind_some]
      exact ⟨s', cached', lru', hs', hcap.trans hcap₁, h', hstop⟩
    · have hcond : ¬ (p o.cache && o.cache.links.next lruHead != lruHead) = true := by
        rw [Bool.and_eq_true, bne_iff_ne, ne_eq, hhead]
        exact hgo
      rw [if_neg hcond]
      refine ⟨o.cache, cached, lru, rfl, rfl, h, ?_⟩
      rcases not_and_or.1 hgo with hp | hl
      · exact .inl (by simpa using hp)
      · exact .inr (not_not.1 hl)

omit [DecidableEq K] in
theorem Sound.lru_length (h : Sound hash o cached lru in_use) :
    lru.length < o.cache.table.elems + 1 := by
  have hnodup := (nodup_cons.1 h.keeps.lists.lru_list.nodup).2
  have hsub : lru ⊆ cached := fun e he => ((h.keeps.lists.mem_lru e).1 he).1
  have := (subperm_of_subset hnodup hsub).length_le
  rw [h.table.elems]
  omega

omit [DecidableEq K] in
theorem Sound.latest_taken (h : Sound hash o cached lru in_use) {key : K} {r : Option ℕ}
    (htaken : HandleTable.Taken o.cache.heap key cached r rest) (k : K) (e : ℕ) :
    (e ∈ rest ∧ ∃ g, o.cache.heap e = some g ∧ g.key = k) ↔
      k ≠ key ∧ o.latest k = some e ∧ e ∉ o.cache.evicted := by
  rw [htaken.mem_iff h.table.distinct, h.latest k e]
  constructor
  · rintro ⟨⟨hc, hne⟩, g, hg, hkey⟩
    exact ⟨hkey ▸ hne g hg, hc, g, hg, hkey⟩
  · rintro ⟨hk, hc, g, hg, hkey⟩
    refine ⟨⟨hc, fun g' hg' hkey' => hk ?_⟩, g, hg, hkey⟩
    rw [hg] at hg'
    rw [← hkey, some.inj hg', hkey']

/-- **A new entry**, before others are evicted. -/
theorem Sound.addEntry (h : Sound hash o cached lru in_use) (key : K) (value : V) (charge : ℕ)
    (hroom : o.cache.table.elems < 2 ^ 31) :
    ∃ s' cached' lru' in_use', o.cache.addEntry key (hash key) value charge = some s' ∧
      s'.capacity = o.cache.capacity ∧
      Sound hash ⟨s', o.inserted ++ [(key, value)],
        update o.held o.cache.next_handle (o.held o.cache.next_handle + 1),
        update o.latest key (some o.cache.next_handle)⟩ cached' lru' in_use' := by
  obtain ⟨n, hn⟩ : ∃ n, n = o.cache.next_handle := ⟨_, rfl⟩
  have hfresh : o.cache.heap n = none := h.keeps.handles.fresh (hn.trans h.keeps.next_handle).ge
  have hheld : o.held n = 0 := h.keeps.handles.free n hfresh
  have hout : n ∉ cached := fun he => (h.handle_lt he).ne hn
  have hnotev : n ∉ o.cache.evicted := fun he => (h.evicted_lt n he).ne hn
  have hlatest : ∀ k e, update o.latest key (some n) k = some e → e < n + 1 := by
    intro k e he
    by_cases hk : k = key
    · subst hk
      rw [update_self] at he
      exact some.inj he ▸ Nat.lt_succ_self n
    · rw [update_of_ne hk] at he
      have := h.latest_lt k e he
      omega
  rw [LRUCache.addEntry, ← hn, hheld]
  by_cases hcap : 0 < o.cache.capacity
  · rw [if_pos hcap]
    simp only
    have hk₁ := h.keeps.linkEntry key value charge
    have hheap : ∀ e, e ≠ n → (o.cache.linkEntry key (hash key) value charge).heap e =
        o.cache.heap e := fun e he => update_of_ne (hn ▸ he) _ _
    have hself : (o.cache.linkEntry key (hash key) value charge).heap n =
        some ⟨key, hash key, value, charge, true, 2⟩ := by
      rw [hn]
      exact update_self _ _ _
    have htable : (o.cache.linkEntry key (hash key) value charge).table = o.cache.table := rfl
    have hevicted : (o.cache.linkEntry key (hash key) value charge).evicted = o.cache.evicted := rfl
    have hcapacity : (o.cache.linkEntry key (hash key) value charge).capacity = o.cache.capacity :=
      rfl
    generalize o.cache.linkEntry key (hash key) value charge = s₁ at *
    have hsame : ∀ e ∈ cached, s₁.heap e = o.cache.heap e := fun e he =>
      hheap e fun heq => hout (heq ▸ he)
    have ht₁ : s₁.table.Holds s₁.heap hash cached := by
      rw [htable]
      exact holds_of_heap_eq h.table hsame
    obtain ⟨t', r, rest, hinsert, htaken₁, ht'⟩ := ht₁.insert_spec hout hself rfl (htable ▸ hroom)
    have htaken : HandleTable.Taken o.cache.heap key cached r rest :=
      htaken₁.congr fun e he => (hsame e he).symm
    rw [hinsert, bind_some]
    -- the entry that has been replaced, if there is one, leaves the cache
    have hperm : (n :: cached).Perm (r.toList ++ n :: rest) :=
      (htaken.perm.cons n).trans perm_middle.symm
    rw [← hn] at hk₁
    have hk₂ : Keeps hash (o.inserted ++ [(key, value)]) (update o.held n 1)
        { s₁ with table := t' } (n :: cached) lru (in_use ++ [n]) :=
      ⟨hk₁.next_handle, hk₁.lists, hk₁.handles⟩
    obtain ⟨s', lru', in_use', hs', htable', hcapacity', hevicted', hheap', hk'⟩ :=
      hk₂.finishErase_perm hperm
    have hnext : s'.next_handle = n + 1 := by
      rw [hk'.next_handle, hn, h.keeps.next_handle, length_append, length_singleton]
    have hev : s'.evicted = o.cache.evicted := hevicted'.trans hevicted
    have hrest : ∀ e ∈ rest, s'.heap e = o.cache.heap e := fun e he =>
      (hheap' e (mem_cons_of_mem _ he)).trans
        (hsame e (htaken.perm.mem_iff.2 (mem_append_right _ he)))
    refine ⟨s', n :: rest, lru', in_use', hs', hcapacity'.trans hcapacity, hk', ?_, fun k e => ?_,
      ?_, fun e he => ?_,
      fun hzero => ?_⟩
    · simp only [htable']
      exact holds_of_heap_eq ht' hheap'
    · have hnew : s'.heap n = some ⟨key, hash key, value, charge, true, 2⟩ :=
        (hheap' n mem_cons_self).trans hself
      have hold := h.latest_taken htaken k e
      simp only [hev]
      by_cases hen : e = n
      · subst hen
        rw [hnew]
        have hnone : o.latest k ≠ some e := fun hl => (h.latest_lt k e hl).ne hn
        by_cases hk : k = key
        · subst hk
          rw [update_self]
          exact iff_of_true ⟨rfl, hnotev⟩ ⟨mem_cons_self, _, rfl, rfl⟩
        · rw [update_of_ne hk]
          refine iff_of_false (fun hl => hnone hl.1) ?_
          rintro ⟨-, g, hg, hkey⟩
          rw [← some.inj hg] at hkey
          exact hk hkey.symm
      · have hmem : e ∈ n :: rest ↔ e ∈ rest := by
          rw [mem_cons]
          simp only [hen, false_or]
        rw [hmem]
        have hcongr : (e ∈ rest ∧ ∃ g, s'.heap e = some g ∧ g.key = k) ↔
            (e ∈ rest ∧ ∃ g, o.cache.heap e = some g ∧ g.key = k) :=
          and_congr_right fun he => by rw [hrest e he]
        rw [hcongr, hold]
        by_cases hk : k = key
        · subst hk
          rw [update_self]
          exact iff_of_false (fun hl => hen (some.inj hl.1).symm) fun hl => hl.1 rfl
        · rw [update_of_ne hk]
          exact ⟨fun hl => ⟨hk, hl⟩, And.right⟩
    · simp only [hnext]
      exact hlatest
    · simp only [hnext]
      have := h.evicted_lt e (hev ▸ he)
      omega
    · exact absurd (hcapacity'.trans hcapacity ▸ hzero) hcap.ne'
  · -- nothing is cached
    rw [if_neg hcap]
    have hk₁ := h.keeps.looseEntry key value charge
    rw [← hn] at hk₁
    obtain rfl := h.uncached (Nat.eq_zero_of_not_pos hcap)
    refine ⟨_, [], lru, in_use, rfl, rfl, hk₁, ?_, fun k e => ?_, ?_, fun e he => ?_, fun _ => rfl⟩
    · exact holds_of_heap_eq h.table fun e he => absurd he not_mem_nil
    · refine iff_of_false ?_ fun hl => absurd hl.1 not_mem_nil
      rintro ⟨hl, hev⟩
      simp only at hl
      simp only [LRUCache.looseEntry, mem_append, mem_singleton, not_or] at hev
      by_cases hk : k = key
      · subst hk
        rw [update_self] at hl
        exact hev.2 (hn ▸ (some.inj hl).symm)
      · rw [update_of_ne hk] at hl
        exact absurd ((h.latest k e).1 ⟨hl, hev.1⟩).1 not_mem_nil
    · simp only [LRUCache.looseEntry, ← hn]
      exact hlatest
    · simp only [LRUCache.looseEntry, mem_append, mem_singleton, ← hn] at he ⊢
      rcases he with he | rfl
      · have := h.evicted_lt e he
        omega
      · exact Nat.lt_succ_self _

/-- **`Insert`.** -/
theorem Sound.insert (h : Sound hash o cached lru in_use) (key : K) (value : V) (charge : ℕ)
    (hroom : o.cache.table.elems < 2 ^ 31) :
    ∃ o' cached' lru' in_use', step hash o (.insert key value charge) = some o' ∧
      o'.cache.capacity = o.cache.capacity ∧ Sound hash o' cached' lru' in_use' ∧
      (o'.cache.usage ≤ o.cache.capacity ∨ lru' = []) := by
  obtain ⟨s₁, cached₁, lru₁, in_use₁, hs₁, hcap₁, h₁⟩ := h.addEntry key value charge hroom
  obtain ⟨s', cached', lru', hs', hcap, h', hstop⟩ := h₁.evictWhile
    (fun s => decide (s.usage > s.capacity)) (s₁.table.elems + 1) h₁.lru_length
  have hcapacity : s'.capacity = o.cache.capacity := hcap.trans hcap₁
  refine ⟨_, cached', lru', in_use₁, ?_, hcapacity, h', ?_⟩
  · rw [step, LRUCache.insert, hs₁, bind_some, hs', map_some, map_some]
  · rcases hstop with hstop | hstop
    · exact .inl (hcapacity ▸ not_lt.1 (of_decide_eq_false hstop))
    · exact .inr hstop

/-- **`Erase`.** -/
theorem Sound.erase (h : Sound hash o cached lru in_use) (key : K) :
    ∃ o' cached' lru' in_use', step hash o (.erase key) = some o' ∧
      o'.cache.capacity = o.cache.capacity ∧ Sound hash o' cached' lru' in_use' := by
  obtain ⟨t', r, rest, hremove, htaken, ht'⟩ := h.table.remove_spec key
  have hk₁ : Keeps hash o.inserted o.held { o.cache with table := t' } cached lru in_use :=
    ⟨h.keeps.next_handle, h.keeps.lists, h.keeps.handles⟩
  obtain ⟨s', lru', in_use', hs', htable', hcapacity', hevicted', hheap', hk'⟩ :=
    hk₁.finishErase_perm htaken.perm
  have hnext : s'.next_handle = o.cache.next_handle := by
    rw [hk'.next_handle, h.keeps.next_handle]
  refine ⟨{ o with cache := s', latest := update o.latest key none }, rest, lru', in_use',
    ?_, hcapacity', hk', ?_, fun k e => ?_, fun k e he => ?_, ?_, fun hzero => ?_⟩
  · rw [step, LRUCache.erase, hremove, bind_some, hs', map_some]
  · simp only [htable']
    exact holds_of_heap_eq ht' hheap'
  · have hcongr : (e ∈ rest ∧ ∃ g, s'.heap e = some g ∧ g.key = k) ↔
        (e ∈ rest ∧ ∃ g, o.cache.heap e = some g ∧ g.key = k) :=
      and_congr_right fun he => by rw [hheap' e he]
    simp only [hevicted']
    rw [hcongr, h.latest_taken htaken k e]
    by_cases hk : k = key
    · subst hk
      rw [update_self]
      exact iff_of_false (fun hl => some_ne_none e hl.1.symm) fun hl => hl.1 rfl
    · rw [update_of_ne hk]
      exact ⟨fun hl => ⟨hk, hl⟩, And.right⟩
  · simp only [hnext] at he ⊢
    by_cases hk : k = key
    · subst hk
      rw [update_self] at he
      cases he
    · rw [update_of_ne hk] at he
      exact h.latest_lt k e he
  · simp only [hnext, hevicted']
    exact h.evicted_lt
  · have hnil : cached = [] := h.uncached (hcapacity' ▸ hzero)
    have hlen := htaken.perm.length_eq
    rw [hnil, length_nil, length_append] at hlen
    exact length_eq_zero_iff.1 (by omega)

variable (h : Sound hash o cached lru in_use)
include h

omit [DecidableEq K] in
theorem Sound.of_frame {s' : LRUCache K V} {held' : ℕ → ℕ}
    {lru' in_use' : List ℕ} (hframe : Frame o.cache s' e)
    (hkey : e ∈ cached → ∀ g, o.cache.heap e = some g →
      ∃ g', s'.heap e = some g' ∧ g'.key = g.key ∧ g'.hash = g.hash)
    (hk : Keeps hash o.inserted held' s' cached lru' in_use') :
    Sound hash { o with cache := s', held := held' } cached lru' in_use' := by
  have hsame : ∀ e' ∈ cached, ∀ g, o.cache.heap e' = some g →
      ∃ g', s'.heap e' = some g' ∧ g'.key = g.key ∧ g'.hash = g.hash := by
    intro e' he' g hg
    by_cases heq : e' = e
    · subst heq
      exact hkey he' g hg
    · exact ⟨g, (hframe.heap e' heq).trans hg, rfl, rfl⟩
  have hnext : s'.next_handle = o.cache.next_handle := by
    rw [hk.next_handle, h.keeps.next_handle]
  refine ⟨hk, ?_, fun k e' => ?_, ?_, ?_, ?_⟩
  · simp only [hframe.table]
    exact h.table.congr hsame
  · simp only [hframe.evicted]
    rw [h.latest k e']
    refine and_congr_right fun he' => ?_
    obtain ⟨g, hg⟩ := h.keeps.handles.allocated e' he'
    obtain ⟨g', hg', hkey', -⟩ := hsame e' he' g hg
    simp only [hg, hg', Option.some.injEq, exists_eq_left', hkey']
  · simp only [hnext]
    exact h.latest_lt
  · simp only [hnext, hframe.evicted]
    exact h.evicted_lt
  · simp only [hframe.capacity]
    exact h.uncached

/-- **`Lookup`.** -/
theorem Sound.lookup (key : K)
    (hfits : ∀ e, o.held e + 2 < 2 ^ 32) :
    ∃ o' lru' in_use', step hash o (.lookup key) = some o' ∧
      o'.cache.capacity = o.cache.capacity ∧ Sound hash o' cached lru' in_use' := by
  obtain ⟨r, hr, hspec⟩ := h.table.lookup_spec key
  rw [step, LRUCache.lookup, hr, bind_some]
  cases r with
  | none => exact ⟨o, lru, in_use, rfl, rfl, h⟩
  | some e =>
    obtain ⟨he, g, hg, -⟩ := (hspec e).1 rfl
    obtain ⟨s', lru', in_use', hs', hframe, ⟨g', hg', hkey'⟩, hk'⟩ := h.keeps.ref hg (hfits e)
    refine ⟨_, lru', in_use', by simp only [hs', map_some], hframe.capacity,
      h.of_frame hframe ?_ hk'⟩
    intro _ g₁ hg₁
    rw [hg] at hg₁
    exact some.inj hg₁ ▸ ⟨g', hg', hkey'⟩

/-- **`Release`** of a handle that is held. -/
theorem Sound.release (hheld : 0 < o.held e) :
    ∃ o' lru' in_use', step hash o (.release e) = some o' ∧
      o'.cache.capacity = o.cache.capacity ∧ Sound hash o' cached lru' in_use' := by
  obtain ⟨s', lru', in_use', hs', hframe, hkey, hk'⟩ := h.keeps.unref hheld
  exact ⟨_, lru', in_use', by rw [step, LRUCache.release, hs', map_some], hframe.capacity,
    h.of_frame hframe hkey hk'⟩

/-- **`Prune`.** -/
theorem Sound.prune :
    ∃ o' cached' lru', step hash o .prune = some o' ∧
      o'.cache.capacity = o.cache.capacity ∧ Sound hash o' cached' lru' in_use := by
  obtain ⟨s', cached', lru', hs', hcap, h', -⟩ := h.evictWhile (fun _ => true)
    (o.cache.table.elems + 1) h.lru_length
  exact ⟨_, cached', lru', by rw [step, LRUCache.prune, hs', map_some], hcap, h'⟩

/-- **Every call returns and keeps the invariant**; after `Insert` the cache is not too full, or no
entry can be evicted. -/
theorem Sound.step (op : CacheOp K V)
    (hallowed : Allowed o op) :
    ∃ o', CacheRun.step hash o op = some o' ∧ o'.cache.capacity = o.cache.capacity ∧
      ∃ cached' lru' in_use', Sound hash o' cached' lru' in_use' ∧
        ((∃ key value charge, op = .insert key value charge) →
          o'.cache.usage ≤ o.cache.capacity ∨ lru' = []) := by
  cases op with
  | insert key value charge =>
    obtain ⟨o', cached', lru', in_use', ho', hcap, h', hfull⟩ :=
      h.insert key value charge hallowed.2.2
    exact ⟨o', ho', hcap, cached', lru', in_use', h', fun _ => hfull⟩
  | lookup key =>
    obtain ⟨o', lru', in_use', ho', hcap, h'⟩ := h.lookup key hallowed.2.1
    exact ⟨o', ho', hcap, cached, lru', in_use', h', by rintro ⟨_, _, _, heq⟩; cases heq⟩
  | release e =>
    obtain ⟨o', lru', in_use', ho', hcap, h'⟩ := h.release (hallowed.1 e rfl)
    exact ⟨o', ho', hcap, cached, lru', in_use', h', by rintro ⟨_, _, _, heq⟩; cases heq⟩
  | erase key =>
    obtain ⟨o', cached', lru', in_use', ho', hcap, h'⟩ := h.erase key
    exact ⟨o', ho', hcap, cached', lru', in_use', h', by rintro ⟨_, _, _, heq⟩; cases heq⟩
  | prune =>
    obtain ⟨o', cached', lru', ho', hcap, h'⟩ := h.prune
    exact ⟨o', ho', hcap, cached', lru', in_use, h', by rintro ⟨_, _, _, heq⟩; cases heq⟩

omit h

end Sound

/-! ### Runs -/

/-- What clients can rely on: the two lists are `lru` and `in_use`. -/
structure Correct (hash : K → ℕ) (o : CacheRun K V) (lru in_use : List ℕ) : Prop where
  lru_list : o.cache.links.IsList lruHead lru
  in_use_list : o.cache.links.IsList inUseHead in_use
  usage : o.cache.usage =
    (o.cache.table.list.flatten.map (chargeOf o.cache.heap)).sum % 2 ^ 64
  /-- An entry is in the table if `in_cache` says so, and once. -/
  table : ∀ e, o.cache.table.list.flatten.count e =
    if (o.cache.heap e).any LRUHandle.in_cache then 1 else 0
  /-- It is on `lru_` if only the cache refers to it. -/
  on_lru : ∀ e, lru.count e = if e ∈ o.cache.table.list.flatten ∧ o.held e = 0 then 1 else 0
  on_in_use : ∀ e, in_use.count e =
    if e ∈ o.cache.table.list.flatten ∧ 0 < o.held e then 1 else 0
  /-- A lookup finds the latest `Insert` that has not been erased, unless it has been evicted. -/
  lookup : ∀ k, ∃ s r, o.cache.lookup k (hash k) = some (s, r) ∧
    (∀ e, r = some e ↔ o.latest k = some e ∧ e ∉ o.cache.evicted) ∧
    ∀ e, r = some e → ∃ h, s.heap e = some h ∧ o.inserted[e - 2]? = some (k, h.value)
  /-- The deleter is called once, when neither the cache nor a client refers to the entry. -/
  deleted : ∀ e, o.cache.deleted.filter (fun d => d.1 == e) =
    if e ∈ o.cache.table.list.flatten ∨ 0 < o.held e then [] else deleterCall o.inserted e

section Runs

variable {hash : K → ℕ} {o : CacheRun K V} {cached lru in_use : List ℕ}

omit [DecidableEq K] in
theorem Sound.mem_table (h : Sound hash o cached lru in_use) (e : ℕ) :
    e ∈ o.cache.table.list.flatten ↔ e ∈ cached :=
  h.table.placed.perm.mem_iff

theorem Sound.lookup_latest (h : Sound hash o cached lru in_use) (k : K) :
    ∃ s r, o.cache.lookup k (hash k) = some (s, r) ∧
      (∀ e, r = some e ↔ o.latest k = some e ∧ e ∉ o.cache.evicted) ∧
      ∀ e, r = some e → ∃ g, s.heap e = some g ∧ o.inserted[e - 2]? = some (k, g.value) := by
  obtain ⟨r, hr, hspec⟩ := h.table.lookup_spec k
  rw [LRUCache.lookup, hr, bind_some]
  cases r with
  | none =>
    exact ⟨o.cache, none, rfl, fun e => (hspec e).trans (h.latest k e).symm,
      fun e he => by cases he⟩
  | some e =>
    obtain ⟨he, g, hg, hkey⟩ := (hspec e).1 rfl
    simp only [LRUCache.ref, hg, map_some]
    refine ⟨_, some e, rfl, fun e' => (hspec e').trans (h.latest k e').symm, fun e' he' => ?_⟩
    obtain rfl := some.inj he'
    refine ⟨_, update_self _ _ _, ?_⟩
    rw [(h.keeps.handles.describes e g hg).inserted, hkey]

theorem Sound.correct (h : Sound hash o cached lru in_use) : Correct hash o lru in_use where
  lru_list := h.keeps.lists.lru_list
  in_use_list := h.keeps.lists.in_use_list
  usage := by rw [h.keeps.handles.usage, (h.table.placed.perm.map _).sum_eq]
  table e := by
    rw [h.table.placed.perm.count_eq, h.keeps.handles.nodup.count]
    refine if_congr ?_ rfl rfl
    constructor
    · intro he
      obtain ⟨g, hg⟩ := h.keeps.handles.allocated e he
      rw [hg, any_some]
      exact (h.keeps.handles.describes e g hg).in_cache.2 he
    · intro hany
      obtain ⟨g, hg, hin⟩ := (any_eq_true _ _).1 hany
      exact (h.keeps.handles.describes e g hg).in_cache.1 hin
  on_lru e := by
    rw [(nodup_cons.1 h.keeps.lists.lru_list.nodup).2.count]
    refine if_congr ?_ rfl rfl
    rw [h.mem_table, h.keeps.lists.mem_lru]
  on_in_use e := by
    rw [(nodup_cons.1 h.keeps.lists.in_use_list.nodup).2.count]
    refine if_congr ?_ rfl rfl
    rw [h.mem_table, h.keeps.lists.mem_in_use]
  lookup := h.lookup_latest
  deleted e := by
    rw [h.keeps.handles.deleted]
    by_cases hnone : o.cache.heap e = none
    · have hout : ¬ (e ∈ o.cache.table.list.flatten ∨ 0 < o.held e) := by
        rintro (he | hheld)
        · obtain ⟨g, hg⟩ := h.keeps.handles.allocated e ((h.mem_table e).1 he)
          exact some_ne_none g (hg.symm.trans hnone)
        · exact hheld.ne' (h.keeps.handles.free e hnone)
      rw [if_pos hnone, if_neg hout]
    · obtain ⟨g, hg⟩ := ne_none_iff_exists'.1 hnone
      have hd := h.keeps.handles.describes e g hg
      have hin : e ∈ o.cache.table.list.flatten ∨ 0 < o.held e := by
        by_cases hcache : g.in_cache = true
        · exact .inl ((h.mem_table e).2 (hd.in_cache.1 hcache))
        · have hrefs := hd.refs
          rw [if_neg hcache, Nat.add_zero] at hrefs
          exact .inr (hrefs ▸ hd.refs_pos)
      rw [if_neg hnone, if_pos hin]

end Runs

theorem exists_sound_run (hash : K → ℕ) (capacity : ℕ) (ops : List (CacheOp K V))
    (hok : Steps.Meets (step hash) Allowed (init capacity) ops) :
    ∃ o, Steps.run (step hash) (init capacity) ops = some o ∧ o.cache.capacity = capacity ∧
      ∃ cached lru in_use, Sound hash o cached lru in_use := by
  refine Steps.exists_run (fun o op h hallowed => ?_) ⟨rfl, [], [], [], sound_init capacity⟩ hok
  obtain ⟨hcap, cached, lru, in_use, h⟩ := h
  obtain ⟨o', ho', hcap', cached', lru', in_use', h', -⟩ := h.step op hallowed
  exact ⟨o', ho', hcap'.trans hcap, cached', lru', in_use', h'⟩

/-- **Invariants of the cache.**  Any sequence of calls that releases only handles that are held
returns, and leaves a cache that clients can rely on; after an `Insert` it is not too full, or no
entry can be evicted. -/
theorem invariants (hash : K → ℕ) (capacity : ℕ) (ops : List (CacheOp K V))
    (hok : Steps.Meets (step hash) Allowed (init capacity) ops) :
    ∃ o lru in_use, Steps.run (step hash) (init capacity) ops = some o ∧
      Correct hash o lru in_use ∧
      ((∃ key value charge, ops.getLast? = some (.insert key value charge)) →
        o.cache.usage ≤ capacity ∨ lru = []) := by
  rcases eq_nil_or_concat ops with rfl | ⟨before, op, rfl⟩
  · exact ⟨init capacity, [], [], rfl, (sound_init capacity).correct,
      by rintro ⟨_, _, _, hlast⟩; cases hlast⟩
  · rw [concat_eq_append] at hok ⊢
    obtain ⟨hbefore, hlast⟩ := (Steps.meets_append _ _ _).1 hok
    obtain ⟨o₁, hrun₁, hcap₁, cached₁, lru₁, in_use₁, h₁⟩ :=
      exists_sound_run hash capacity before hbefore
    obtain ⟨o', ho', -, cached', lru', in_use', h', hfull⟩ := h₁.step op (hlast o₁ hrun₁).1
    refine ⟨o', lru', in_use', ?_, h'.correct, ?_⟩
    · rw [Steps.run_append, hrun₁, bind_some, Steps.run, ho', bind_some, Steps.run]
    · rintro ⟨key, value, charge, hop⟩
      rw [List.getLast?_concat] at hop
      exact hcap₁ ▸ hfull ⟨key, value, charge, some.inj hop⟩

/-- The first entry is looked up, released and evicted by the second one, which is erased while a
client holds it. -/
theorem invariants_small :
    let ops : List (CacheOp ℕ Char) := [.insert 5 'a' 1, .lookup 5, .release 2, .release 2,
      .insert 6 'b' 1, .erase 6, .release 3]
    Steps.Meets (step id) Allowed (init 1) ops ∧
    ∃ o lru in_use, Steps.run (step id) (init 1) ops = some o ∧ Correct id o lru in_use ∧
      o.cache.evicted = [2] ∧ o.cache.deleted = [(2, 5, 'a'), (3, 6, 'b')] := by
  intro ops
  have hok : Steps.Meets (step id) Allowed (init 1) ops :=
    meets_of_short (n := 0) (by decide +kernel) (fun _ => le_rfl) (by decide)
  have hend : (Steps.run (step id) (init 1) ops).map
      (fun o => (o.cache.evicted, o.cache.deleted)) =
        some ([2], [(2, 5, 'a'), (3, 6, 'b')]) := by decide +kernel
  obtain ⟨o, lru, in_use, hrun, hcorrect, -⟩ := invariants id 1 ops hok
  rw [hrun] at hend
  obtain ⟨hevicted, hdeleted⟩ := Prod.mk.inj (some.inj hend)
  exact ⟨hok, o, lru, in_use, hrun, hcorrect, hevicted, hdeleted⟩

/-! ### Too many references -/

/-- The cache with one entry, which has been looked up `n` times and not released. -/
def lookedUp (n : ℕ) : CacheRun Unit Unit where
  cache :=
    { capacity := 1
      usage := 1
      heap := update (fun _ => none) 2 (some ⟨(), 0, (), 1, true, (2 + n) % 2 ^ 32⟩)
      next_handle := 3
      links := (⟨id, id⟩ : Links ℕ).append inUseHead 2
      table := ⟨4, 1, [[2], [], [], []]⟩
      deleted := []
      evicted := [] }
  inserted := [((), ())]
  held := update (fun _ => 0) 2 (1 + n)
  latest := update (fun _ => none) () (some 2)

/-- The entry is taken off the list `in_use_` and put back. -/
theorem remove_append_in_use :
    ((((⟨id, id⟩ : Links ℕ).append inUseHead 2).remove 2).append inUseHead 2) =
      (⟨id, id⟩ : Links ℕ).append inUseHead 2 := by
  simp only [Links.append, Links.remove, inUseHead, Links.mk.injEq]
  constructor
  · funext y
    by_cases h1 : y = 1
    · subst h1
      decide
    · by_cases h2 : y = 2
      · subst h2
        decide
      · simp [update, h1, h2]
  · funext y
    by_cases h1 : y = 1
    · subst h1
      decide
    · by_cases h2 : y = 2
      · subst h2
        decide
      · simp [update, h1, h2]

theorem step_insert_lookedUp :
    step (fun _ => 0) (init 1) (.insert () () 1) = some (lookedUp 0) := rfl

theorem step_lookup_lookedUp (n : ℕ) :
    step (fun _ => 0) (lookedUp n) (.lookup ()) = some (lookedUp (n + 1)) := by
  have hheap : (lookedUp n).cache.heap 2 = some ⟨(), 0, (), 1, true, (2 + n) % 2 ^ 32⟩ := rfl
  have hslot : (lookedUp n).cache.table.list.getD ((lookedUp n).cache.table.bucket 0) [] = [2] := by
    simp [lookedUp, HandleTable.bucket]
  have hfound : (lookedUp n).cache.table.lookup (lookedUp n).cache.heap () 0 = some (some 2) := by
    rw [HandleTable.lookup, HandleTable.findSlot, hslot, HandleTable.findPointer, hheap]
    rfl
  have hlinks : (if (2 + n) % 2 ^ 32 = 1 ∧ True then
      ((lookedUp n).cache.links.remove 2).append inUseHead 2 else (lookedUp n).cache.links) =
      (lookedUp n).cache.links := by
    split_ifs
    · exact remove_append_in_use
    · rfl
  rw [step, LRUCache.lookup, hfound, bind_some]
  simp only [LRUCache.ref, hheap, map_some, hlinks]
  simp only [lookedUp, update_idem, update_self, Nat.mod_add_mod, Nat.add_assoc]

/-- The calls: one `Insert`, `2 ^ 32` lookups, one `Release` and `Prune`. -/
def tooManyLookups : List (CacheOp Unit Unit) :=
  (.insert () () 1 :: List.replicate (2 ^ 32) (.lookup ())) ++ [.release 2, .prune]

theorem run_lookups (n m : ℕ) :
    Steps.run (step fun _ => 0) (lookedUp n) (List.replicate m (.lookup ())) =
      some (lookedUp (n + m)) := by
  induction m generalizing n with
  | zero => rfl
  | succ m ih =>
    rw [replicate_succ, Steps.run, step_lookup_lookedUp, bind_some, ih, Nat.add_assoc,
      Nat.add_comm 1 m]

theorem run_insert_lookups :
    Steps.run (step fun _ => 0) (init 1) (.insert () () 1 :: List.replicate (2 ^ 32) (.lookup ())) =
      some (lookedUp (2 ^ 32)) := by
  rw [Steps.run, step_insert_lookedUp, bind_some, run_lookups, Nat.zero_add]

/-- **The reference count wraps around**: the deleter is called while the entry is held. -/
theorem deleted_while_held :
    Steps.Meets (step fun _ => 0) (fun o op => ∀ e, op = .release e → 0 < o.held e) (init 1)
      tooManyLookups ∧
    ∃ o, Steps.run (step fun _ => 0) (init 1) tooManyLookups = some o ∧ o.held 2 = 2 ^ 32 ∧
      o.cache.deleted = [(2, (), ())] := by
  refine ⟨(Steps.meets_append _ _ _).2 ⟨?_, fun o ho => ?_⟩, ?_⟩
  · have hnone : ∀ op ∈ CacheOp.insert () () 1 :: List.replicate (2 ^ 32) (.lookup ()),
        ∀ e, op ≠ .release e := by
      intro op hop e heq
      subst heq
      rcases mem_cons.1 hop with hop | hop
      · cases hop
      · cases eq_of_mem_replicate hop
    exact (Steps.meets_of_forall hnone _).mono fun o op hne e he => absurd he (hne e)
  · rw [run_insert_lookups] at ho
    obtain rfl := some.inj ho
    refine ⟨fun e he => ?_, fun o' _ => ⟨fun e he => ?_, fun _ _ => trivial⟩⟩
    · cases he
      decide
    · cases he
  · have hend : ∃ o, Steps.run (step fun _ => 0) (lookedUp (2 ^ 32)) [.release 2, .prune] =
        some o ∧ o.held 2 = 2 ^ 32 ∧ o.cache.deleted = [(2, (), ())] := ⟨_, rfl, rfl, rfl⟩
    obtain ⟨o, ho, hheld, hdeleted⟩ := hend
    refine ⟨o, ?_, hheld, hdeleted⟩
    rw [tooManyLookups, Steps.run_append, run_insert_lookups, bind_some, ho]

end CacheRun

end Bourbon
