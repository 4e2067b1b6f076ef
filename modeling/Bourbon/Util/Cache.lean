import Mathlib.Algebra.BigOperators.Group.List.Basic
import Bourbon.Lib.CircularList
import Bourbon.Util.HandleTable

/-!
# A shard of the cache

`LRUCache` of `util/cache.cc`.  Handles are addresses, and two more addresses are the heads of the
lists `lru_` and `in_use_`.  An entry that is in the cache is on `lru_` if only the cache refers to
it and on `in_use_` otherwise; an entry that has left the cache lives as long as a client holds it.

* `LRUCache` and its operations, with the calls of deleters in order;
* `LRUCache.Lists` : the two lists, for given entries in the cache and given references of clients;
* `LRUCache.Handles` : reference counts, usage and deleter calls;
* `Keeps.ref`, `Keeps.unref`, `Keeps.finishErase`, `Keeps.linkEntry` : what the pieces of the
  operations keep.
-/

namespace Bourbon

open List Function Option

open scoped List

/-- A shard of the cache.  Memory that is not allocated is `none`. -/
structure LRUCache (K V : Type*) where
  capacity : ℕ
  usage : ℕ
  heap : ℕ → Option (LRUHandle K V)
  /-- The address of the next handle. -/
  next_handle : ℕ
  /-- The pointers `next` and `prev`. -/
  links : Links ℕ
  table : HandleTable
  /-- The calls of deleters: the handle, and the arguments. -/
  deleted : List (ℕ × K × V)
  /-- The handles that `Insert` and `Prune` have put out of the cache to make room, or have not
  kept because there is no room at all. -/
  evicted : List ℕ

namespace LRUCache

variable {K V : Type*} [DecidableEq K]

/-- The address of `lru_`. -/
def lruHead : ℕ := 0

/-- The address of `in_use_`. -/
def inUseHead : ℕ := 1

/-- The constructor and `SetCapacity`. -/
def new (capacity : ℕ) : LRUCache K V :=
  ⟨capacity, 0, fun _ => none, 2, ⟨id, id⟩, .new, [], []⟩

/-- `Ref`; `refs` has 32 bits. -/
def ref (s : LRUCache K V) (e : ℕ) : Option (LRUCache K V) :=
  (s.heap e).map fun h =>
    let links := if h.refs = 1 ∧ h.in_cache then (s.links.remove e).append inUseHead e else s.links
    { s with
      links := links
      heap := Function.update s.heap e (some { h with refs := (h.refs + 1) % 2 ^ 32 }) }

/-- `Unref`. -/
def unref (s : LRUCache K V) (e : ℕ) : Option (LRUCache K V) :=
  (s.heap e).bind fun h =>
    if h.refs = 0 then none
    else if h.refs - 1 = 0 then
      -- deallocate
      if h.in_cache then none
      else some { s with
        heap := Function.update s.heap e none
        deleted := s.deleted ++ [(e, h.key, h.value)] }
    else
      let links := if h.in_cache ∧ h.refs - 1 = 1 then (s.links.remove e).append lruHead e
        else s.links
      some { s with
        links := links
        heap := Function.update s.heap e (some { h with refs := h.refs - 1 }) }

/-- `FinishErase` of what has been removed from the hash table, if anything has. -/
def finishErase (s : LRUCache K V) : Option ℕ → Option (LRUCache K V)
  | none => some s
  | some e =>
    (s.heap e).bind fun h =>
      if h.in_cache then
        unref { s with
          links := s.links.remove e
          heap := Function.update s.heap e (some { h with in_cache := false })
          usage := (s.usage + (2 ^ 64 - h.charge % 2 ^ 64)) % 2 ^ 64 } e
      else none

/-- One round of the loops of `Insert` and `Prune`: the oldest entry of `lru_` leaves the cache. -/
def evictOldest (s : LRUCache K V) : Option (LRUCache K V) :=
  let old := s.links.next lruHead
  (s.heap old).bind fun h =>
    if h.refs = 1 then
      match s.table.remove s.heap h.key h.hash with
      | some (table, some e) =>
        finishErase { s with table := table, evicted := s.evicted ++ [e] } (some e)
      | _ => none
    else none

/-- The loops of `Insert` and `Prune`, for at most `rounds` rounds. -/
def evictWhile (p : LRUCache K V → Bool) : ℕ → LRUCache K V → Option (LRUCache K V)
  | 0, _ => none
  | rounds + 1, s =>
    if p s && s.links.next lruHead != lruHead then s.evictOldest.bind (evictWhile p rounds)
    else some s

/-- A new entry with a reference of its client and one of the cache. -/
def linkEntry (s : LRUCache K V) (key : K) (hash : ℕ) (value : V) (charge : ℕ) : LRUCache K V :=
  { s with
    next_handle := s.next_handle + 1
    heap := Function.update s.heap s.next_handle (some ⟨key, hash, value, charge, true, 2⟩)
    links := s.links.append inUseHead s.next_handle
    usage := (s.usage + charge) % 2 ^ 64 }

/-- A new entry that is not kept in the cache. -/
def looseEntry (s : LRUCache K V) (key : K) (hash : ℕ) (value : V) (charge : ℕ) : LRUCache K V :=
  { s with
    next_handle := s.next_handle + 1
    heap := Function.update s.heap s.next_handle (some ⟨key, hash, value, charge, false, 1⟩)
    evicted := s.evicted ++ [s.next_handle] }

/-- The part of `Insert` before its loop. -/
def addEntry (s : LRUCache K V) (key : K) (hash : ℕ) (value : V) (charge : ℕ) :
    Option (LRUCache K V) :=
  if 0 < s.capacity then
    let s' := s.linkEntry key hash value charge
    (s'.table.insert s'.heap s.next_handle).bind fun p => finishErase { s' with table := p.1 } p.2
  else some (s.looseEntry key hash value charge)

/-- `Insert`: the cache, and the handle. -/
def insert (s : LRUCache K V) (key : K) (hash : ℕ) (value : V) (charge : ℕ) :
    Option (LRUCache K V × ℕ) :=
  (s.addEntry key hash value charge).bind fun s' =>
    (evictWhile (fun s => decide (s.usage > s.capacity)) (s'.table.elems + 1) s').map fun s'' =>
      (s'', s.next_handle)

/-- `Lookup`: the cache, and the handle, if there is one. -/
def lookup (s : LRUCache K V) (key : K) (hash : ℕ) : Option (LRUCache K V × Option ℕ) :=
  (s.table.lookup s.heap key hash).bind fun r =>
    match r with
    | some e => (s.ref e).map fun s => (s, some e)
    | none => some (s, none)

/-- `Release`. -/
def release (s : LRUCache K V) (handle : ℕ) : Option (LRUCache K V) := s.unref handle

/-- `Erase`. -/
def erase (s : LRUCache K V) (key : K) (hash : ℕ) : Option (LRUCache K V) :=
  (s.table.remove s.heap key hash).bind fun p => finishErase { s with table := p.1 } p.2

/-- `Prune`. -/
def prune (s : LRUCache K V) : Option (LRUCache K V) :=
  evictWhile (fun _ => true) (s.table.elems + 1) s

/-! ### The two lists -/

/-- The entries `cached` are on the two lists, by the references `held` of clients. -/
structure Lists (links : Links ℕ) (held : ℕ → ℕ) (cached lru in_use : List ℕ) : Prop where
  lru_list : links.IsList lruHead lru
  in_use_list : links.IsList inUseHead in_use
  apart : ∀ e ∈ lruHead :: lru, e ∉ inUseHead :: in_use
  mem_lru : ∀ e, e ∈ lru ↔ e ∈ cached ∧ held e = 0
  mem_in_use : ∀ e, e ∈ in_use ↔ e ∈ cached ∧ 0 < held e
  two_le : ∀ e ∈ cached, 2 ≤ e

section Lists

variable {links : Links ℕ} {held held' : ℕ → ℕ} {cached cached' lru in_use : List ℕ} {e : ℕ}

theorem lists_new : Lists (⟨id, id⟩ : Links ℕ) held [] [] [] where
  lru_list := Links.isList_nil rfl rfl
  in_use_list := Links.isList_nil rfl rfl
  apart := by decide
  mem_lru := by simp
  mem_in_use := by simp
  two_le := by simp

theorem Lists.congr (h : Lists links held cached lru in_use)
    (hmem : ∀ e, e ∈ cached' ↔ e ∈ cached) (hheld : ∀ e ∈ cached, held' e = 0 ↔ held e = 0) :
    Lists links held' cached' lru in_use where
  lru_list := h.lru_list
  in_use_list := h.in_use_list
  apart := h.apart
  mem_lru e := by
    rw [h.mem_lru, hmem]
    exact and_congr_right fun he => (hheld e he).symm
  mem_in_use e := by
    rw [h.mem_in_use, hmem]
    refine and_congr_right fun he => ?_
    rw [Nat.pos_iff_ne_zero, Nat.pos_iff_ne_zero, ne_eq, ne_eq, hheld e he]
  two_le e he := h.two_le e ((hmem e).1 he)

theorem Lists.update (h : Lists links held cached lru in_use) {n : ℕ}
    (hn : e ∈ cached → (n = 0 ↔ held e = 0)) :
    Lists links (Function.update held e n) cached lru in_use := by
  refine h.congr (fun _ => Iff.rfl) fun e' he' => ?_
  by_cases heq : e' = e
  · subst heq
    rw [update_self, hn he']
  · rw [update_of_ne heq]

theorem Lists.remove (h : Lists links held cached lru in_use) (he : e ∈ cached)
    (hmem : ∀ e', e' ∈ cached' ↔ e' ∈ cached ∧ e' ≠ e) :
    Lists (links.remove e) held cached' (lru.erase e) (in_use.erase e) := by
  have hnlru := (nodup_cons.1 h.lru_list.nodup).2
  have hnuse := (nodup_cons.1 h.in_use_list.nodup).2
  have hapart : ∀ y ∈ inUseHead :: in_use, y ∉ lruHead :: lru := fun y hy hy' => h.apart y hy' hy
  have hlists : (links.remove e).IsList lruHead (lru.erase e) ∧
      (links.remove e).IsList inUseHead (in_use.erase e) := by
    rcases Nat.eq_zero_or_pos (held e) with hzero | hpos
    · have hin : e ∈ lru := (h.mem_lru e).2 ⟨he, hzero⟩
      have hout : e ∉ in_use := fun hin' => h.apart e (mem_cons_of_mem _ hin)
        (mem_cons_of_mem _ hin')
      rw [erase_of_not_mem hout]
      exact ⟨h.lru_list.remove hin, h.lru_list.remove_frame hin h.in_use_list hapart⟩
    · have hin : e ∈ in_use := (h.mem_in_use e).2 ⟨he, hpos⟩
      have hout : e ∉ lru := fun hin' => h.apart e (mem_cons_of_mem _ hin')
        (mem_cons_of_mem _ hin)
      rw [erase_of_not_mem hout]
      exact ⟨h.in_use_list.remove_frame hin h.lru_list h.apart, h.in_use_list.remove hin⟩
  refine ⟨hlists.1, hlists.2, ?_, fun e' => ?_, fun e' => ?_, fun e' he' =>
    h.two_le e' ((hmem e').1 he').1⟩
  · intro y hy hy'
    refine h.apart y ?_ ?_
    · rcases List.mem_cons.1 hy with rfl | hy
      · exact List.mem_cons_self
      · exact mem_cons_of_mem _ (mem_of_mem_erase hy)
    · rcases List.mem_cons.1 hy' with rfl | hy'
      · exact List.mem_cons_self
      · exact mem_cons_of_mem _ (mem_of_mem_erase hy')
  · rw [hnlru.mem_erase_iff, h.mem_lru, hmem]
    exact ⟨fun ⟨hne, hc, h0⟩ => ⟨⟨hc, hne⟩, h0⟩, fun ⟨⟨hc, hne⟩, h0⟩ => ⟨hne, hc, h0⟩⟩
  · rw [hnuse.mem_erase_iff, h.mem_in_use, hmem]
    exact ⟨fun ⟨hne, hc, h0⟩ => ⟨⟨hc, hne⟩, h0⟩, fun ⟨⟨hc, hne⟩, h0⟩ => ⟨hne, hc, h0⟩⟩

theorem Lists.erase (h : Lists links held cached lru in_use) (hnodup : cached.Nodup)
    (he : e ∈ cached) :
    Lists (links.remove e) held (cached.erase e) (lru.erase e) (in_use.erase e) :=
  h.remove he fun e' => by rw [hnodup.mem_erase_iff, and_comm]

theorem mem_iff_erase (hnodup : cached.Nodup) (he : e ∈ cached) (e' : ℕ) :
    e' ∈ cached ↔ e' = e ∨ e' ∈ cached.erase e := by
  rw [hnodup.mem_erase_iff]
  by_cases heq : e' = e
  · simp [heq, he]
  · simp [heq]

theorem Lists.not_mem (h : Lists links held cached lru in_use) (he : e ∉ cached) (hge : 2 ≤ e) :
    e ∉ lruHead :: lru ∧ e ∉ inUseHead :: in_use := by
  have hne : e ≠ lruHead ∧ e ≠ inUseHead := by rw [lruHead, inUseHead]; omega
  exact ⟨not_mem_cons_of_ne_of_not_mem hne.1 fun hin => he ((h.mem_lru e).1 hin).1,
    not_mem_cons_of_ne_of_not_mem hne.2 fun hin => he ((h.mem_in_use e).1 hin).1⟩

section Append

variable {p : ℕ → Prop} {l : List ℕ} {n : ℕ} (hl : ∀ e', e' ∈ l ↔ e' ∈ cached ∧ p (held e'))
  (hmem : ∀ e', e' ∈ cached' ↔ e' = e ∨ e' ∈ cached)
include hl hmem

theorem mem_append_cached (hn : p n) (e' : ℕ) :
    e' ∈ l ++ [e] ↔ e' ∈ cached' ∧ p (Function.update held e n e') := by
  rw [mem_append, mem_singleton, hl, hmem]
  by_cases heq : e' = e
  · subst heq
    rw [update_self]
    exact iff_of_true (Or.inr rfl) ⟨Or.inl rfl, hn⟩
  · rw [update_of_ne heq]
    simp only [heq, false_or, or_false]

theorem mem_append_other (he : e ∉ cached) (hn : ¬ p n) (e' : ℕ) :
    e' ∈ l ↔ e' ∈ cached' ∧ p (Function.update held e n e') := by
  rw [hl, hmem]
  by_cases heq : e' = e
  · subst heq
    rw [update_self]
    exact iff_of_false (fun hc => he hc.1) (fun hc => hn hc.2)
  · rw [update_of_ne heq]
    simp only [heq, false_or]

end Append

theorem Lists.append_in_use (h : Lists links held cached lru in_use) (he : e ∉ cached)
    (hge : 2 ≤ e) {n : ℕ} (hn : 0 < n) (hmem : ∀ e', e' ∈ cached' ↔ e' = e ∨ e' ∈ cached) :
    Lists (links.append inUseHead e) (Function.update held e n) cached' lru (in_use ++ [e]) := by
  obtain ⟨hlru, huse⟩ := h.not_mem he hge
  refine ⟨h.in_use_list.append_frame h.lru_list h.apart hlru, h.in_use_list.append huse, ?_,
    mem_append_other (p := (· = 0)) h.mem_lru hmem he hn.ne',
    mem_append_cached (p := (0 < ·)) h.mem_in_use hmem hn, ?_⟩
  · intro y hy hy'
    rw [← cons_append, mem_append, mem_singleton] at hy'
    rcases hy' with hy' | rfl
    · exact h.apart y hy hy'
    · exact hlru hy
  · intro e' he'
    rcases (hmem e').1 he' with rfl | he'
    · exact hge
    · exact h.two_le e' he'

theorem Lists.append_lru (h : Lists links held cached lru in_use) (he : e ∉ cached) (hge : 2 ≤ e)
    (hmem : ∀ e', e' ∈ cached' ↔ e' = e ∨ e' ∈ cached) :
    Lists (links.append lruHead e) (Function.update held e 0) cached' (lru ++ [e]) in_use := by
  obtain ⟨hlru, huse⟩ := h.not_mem he hge
  have hapart : ∀ y ∈ inUseHead :: in_use, y ∉ lruHead :: lru := fun y hy hy' => h.apart y hy' hy
  refine ⟨h.lru_list.append hlru, h.lru_list.append_frame h.in_use_list hapart huse, ?_,
    mem_append_cached (p := (· = 0)) h.mem_lru hmem rfl,
    mem_append_other (p := (0 < ·)) h.mem_in_use hmem he (lt_irrefl 0), ?_⟩
  · intro y hy hy'
    rw [← cons_append, mem_append, mem_singleton] at hy
    rcases hy with hy | rfl
    · exact h.apart y hy hy'
    · exact huse hy'
  · intro e' he'
    rcases (hmem e').1 he' with rfl | he'
    · exact hge
    · exact h.two_le e' he'

end Lists

/-! ### Handles -/

/-- The charge of a handle. -/
def chargeOf (heap : ℕ → Option (LRUHandle K V)) (e : ℕ) : ℕ :=
  ((heap e).map LRUHandle.charge).getD 0

/-- The call of the deleter for a handle: the key and the value of its `Insert`. -/
def deleterCall (inserted : List (K × V)) (e : ℕ) : List (ℕ × K × V) :=
  if e < 2 then [] else inserted[e - 2]?.toList.map fun p => (e, p)

/-- What a handle says: it belongs to its `Insert`, its references are those of the clients and of
the cache, and `in_cache` says whether the cache has one. -/
structure Describes (hash : K → ℕ) (inserted : List (K × V)) (held : ℕ → ℕ) (cached : List ℕ)
    (e : ℕ) (h : LRUHandle K V) : Prop where
  two_le : 2 ≤ e
  inserted : inserted[e - 2]? = some (h.key, h.value)
  hash : h.hash = hash h.key
  refs : h.refs = held e + if h.in_cache then 1 else 0
  refs_pos : 0 < h.refs
  in_cache : h.in_cache = true ↔ e ∈ cached

/-- The handles, the usage and the deleter calls, for the entries `cached` in the cache and the
references `held` of clients. -/
structure Handles (hash : K → ℕ) (inserted : List (K × V)) (held : ℕ → ℕ)
    (heap : ℕ → Option (LRUHandle K V)) (usage : ℕ) (deleted : List (ℕ × K × V))
    (cached : List ℕ) : Prop where
  nodup : cached.Nodup
  describes : ∀ e h, heap e = some h → Describes hash inserted held cached e h
  allocated : ∀ e ∈ cached, ∃ h, heap e = some h
  free : ∀ e, heap e = none → held e = 0
  usage : usage = (cached.map (chargeOf heap)).sum % 2 ^ 64
  deleted : ∀ e, deleted.filter (fun d => d.1 == e) =
    if heap e = none then deleterCall inserted e else []

section Handles

variable {hash : K → ℕ} {inserted : List (K × V)} {held held' : ℕ → ℕ}
  {heap heap' : ℕ → Option (LRUHandle K V)} {usage usage' : ℕ} {deleted : List (ℕ × K × V)}
  {cached cached' : List ℕ} {e n : ℕ} {h h' : LRUHandle K V}

omit [DecidableEq K]

theorem handles_new : Handles hash ([] : List (K × V)) (fun _ => 0) (fun _ => none) 0 [] [] where
  nodup := nodup_nil
  describes := by simp
  allocated := by simp
  free := fun _ _ => rfl
  usage := rfl
  deleted := by simp [deleterCall]

theorem Handles.perm (hs : Handles hash inserted held heap usage deleted cached)
    (hp : cached.Perm cached') : Handles hash inserted held heap usage deleted cached' where
  nodup := hp.nodup_iff.1 hs.nodup
  describes e h hh :=
    let hd := hs.describes e h hh
    ⟨hd.two_le, hd.inserted, hd.hash, hd.refs, hd.refs_pos, hd.in_cache.trans hp.mem_iff⟩
  allocated e he := hs.allocated e (hp.mem_iff.2 he)
  free := hs.free
  usage := by rw [hs.usage, (hp.map _).sum_eq]
  deleted := hs.deleted

theorem Describes.other {e' : ℕ} (hd : Describes hash inserted held cached e' h)
    (hheld : held' e' = held e') (hmem : e' ∈ cached' ↔ e' ∈ cached) :
    Describes hash inserted held' cached' e' h :=
  ⟨hd.two_le, hd.inserted, hd.hash, by rw [hheld, hd.refs], hd.refs_pos,
    hd.in_cache.trans hmem.symm⟩

theorem chargeOf_update (hh : heap e = some h) (hcharge : h'.charge = h.charge) :
    chargeOf (Function.update heap e (some h')) = chargeOf heap := by
  funext e'
  by_cases heq : e' = e
  · subst heq
    rw [chargeOf, chargeOf, update_self, hh, map_some, map_some, hcharge]
  · rw [chargeOf, chargeOf, update_of_ne heq]

theorem map_chargeOf_update (hout : e ∉ cached) {x : Option (LRUHandle K V)} :
    cached.map (chargeOf (Function.update heap e x)) = cached.map (chargeOf heap) := by
  refine map_congr_left fun e' he' => ?_
  have hne : e' ≠ e := fun heq => hout (heq ▸ he')
  rw [chargeOf, chargeOf, update_of_ne hne]

variable (hs : Handles hash inserted held heap usage deleted cached)
include hs

/-- **A handle gets other references.** -/
theorem Handles.update
    (h' : LRUHandle K V) (hh : heap e = some h) (hkey : h'.key = h.key)
    (hvalue : h'.value = h.value)
    (hhash : h'.hash = h.hash) (hcharge : h'.charge = h.charge)
    (hrefs : h'.refs = n + if h'.in_cache then 1 else 0) (hpos : 0 < h'.refs)
    (hin : h'.in_cache = true ↔ e ∈ cached') (hnodup : cached'.Nodup)
    (hmem : ∀ e', e' ≠ e → (e' ∈ cached' ↔ e' ∈ cached))
    (husage : usage' = (cached'.map (chargeOf heap)).sum % 2 ^ 64) :
    Handles hash inserted (Function.update held e n) (Function.update heap e (some h')) usage'
      deleted cached' := by
  have hd := hs.describes e h hh
  refine ⟨hnodup, fun e' g hg => ?_, fun e' he' => ?_, fun e' he' => ?_, ?_, fun e' => ?_⟩
  · by_cases heq : e' = e
    · subst heq
      rw [update_self] at hg
      obtain rfl := some.inj hg
      exact ⟨hd.two_le, by rw [hd.inserted, hkey, hvalue], by rw [hhash, hkey, hd.hash],
        by rw [update_self, hrefs], hpos, hin⟩
    · rw [update_of_ne heq] at hg
      exact (hs.describes e' g hg).other (update_of_ne heq _ _) (hmem e' heq)
  · by_cases heq : e' = e
    · subst heq
      exact ⟨h', update_self _ _ _⟩
    · rw [update_of_ne heq]
      exact hs.allocated e' ((hmem e' heq).1 he')
  · by_cases heq : e' = e
    · subst heq
      rw [update_self] at he'
      cases he'
    · rw [update_of_ne heq] at he' ⊢
      exact hs.free e' he'
  · rw [husage, chargeOf_update hh hcharge]
  · rw [hs.deleted]
    by_cases heq : e' = e
    · subst heq
      rw [update_self, hh]
      simp
    · rw [update_of_ne heq]

/-- **A handle is deallocated**, when neither the cache nor a client refers to it. -/
theorem Handles.deallocate
    (hh : heap e = some h) (hnodup : cached'.Nodup) (hout : e ∉ cached')
    (hmem : ∀ e', e' ≠ e → (e' ∈ cached' ↔ e' ∈ cached))
    (husage : usage' = (cached'.map (chargeOf heap)).sum % 2 ^ 64) :
    Handles hash inserted (Function.update held e 0) (Function.update heap e none) usage'
      (deleted ++ [(e, h.key, h.value)]) cached' := by
  have hd := hs.describes e h hh
  refine ⟨hnodup, fun e' g hg => ?_, fun e' he' => ?_, fun e' he' => ?_, ?_, fun e' => ?_⟩
  · by_cases heq : e' = e
    · subst heq
      rw [update_self] at hg
      cases hg
    · rw [update_of_ne heq] at hg
      exact (hs.describes e' g hg).other (update_of_ne heq _ _) (hmem e' heq)
  · have heq : e' ≠ e := fun heq => hout (heq ▸ he')
    rw [update_of_ne heq]
    exact hs.allocated e' ((hmem e' heq).1 he')
  · by_cases heq : e' = e
    · subst heq
      exact update_self _ _ _
    · rw [update_of_ne heq] at he' ⊢
      exact hs.free e' he'
  · rw [husage, map_chargeOf_update hout]
  · rw [filter_append, hs.deleted]
    by_cases heq : e' = e
    · subst heq
      have htwo : ¬ e' < 2 := not_lt.2 hd.two_le
      rw [hh, update_self]
      simp [deleterCall, htwo, hd.inserted]
    · rw [update_of_ne heq]
      simp [Ne.symm heq]

/-- **A new handle**, which its client holds. -/
theorem Handles.allocate
    (h : LRUHandle K V) (hfresh : heap (inserted.length + 2) = none) (hhash : h.hash = hash h.key)
    (hrefs : h.refs = 1 + if h.in_cache then 1 else 0)
    (hin : h.in_cache = true ↔ inserted.length + 2 ∈ cached') (hnodup : cached'.Nodup)
    (hmem : ∀ e', e' ≠ inserted.length + 2 → (e' ∈ cached' ↔ e' ∈ cached))
    (husage : usage' = (cached'.map (chargeOf
      (Function.update heap (inserted.length + 2) (some h)))).sum % 2 ^ 64) :
    Handles hash (inserted ++ [(h.key, h.value)]) (Function.update held (inserted.length + 2) 1)
      (Function.update heap (inserted.length + 2) (some h)) usage' deleted cached' := by
  have hold : ∀ e' p, inserted[e' - 2]? = some p →
      (inserted ++ [(h.key, h.value)])[e' - 2]? = some p := fun e' p hp => by
    rw [List.getElem?_append_left (List.getElem?_eq_some_iff.1 hp).1, hp]
  refine ⟨hnodup, fun e' g hg => ?_, fun e' he' => ?_, fun e' he' => ?_, husage, fun e' => ?_⟩
  · by_cases heq : e' = inserted.length + 2
    · subst heq
      rw [update_self] at hg
      obtain rfl := some.inj hg
      exact ⟨by omega, by simp, hhash, by rw [update_self, hrefs],
        by rw [hrefs]; exact Nat.add_pos_left Nat.one_pos _, hin⟩
    · rw [update_of_ne heq] at hg
      have hd := hs.describes e' g hg
      have hother : Describes hash inserted
        (Function.update held (inserted.length + 2) 1) cached' e'
          g := hd.other (update_of_ne heq _ _) (hmem e' heq)
      exact ⟨hother.two_le, hold e' _ hd.inserted, hother.hash, hother.refs, hother.refs_pos,
        hother.in_cache⟩
  · by_cases heq : e' = inserted.length + 2
    · subst heq
      exact ⟨h, update_self _ _ _⟩
    · rw [update_of_ne heq]
      exact hs.allocated e' ((hmem e' heq).1 he')
  · by_cases heq : e' = inserted.length + 2
    · subst heq
      rw [update_self] at he'
      cases he'
    · rw [update_of_ne heq] at he' ⊢
      exact hs.free e' he'
  · rw [hs.deleted]
    by_cases heq : e' = inserted.length + 2
    · subst heq
      rw [update_self, hfresh]
      simp [deleterCall]
    · rw [update_of_ne heq]
      split_ifs with hnone
      · rw [deleterCall, deleterCall]
        split_ifs with htwo
        · rfl
        · rw [List.getElem?_append]
          split_ifs with hlt
          · rfl
          · rw [List.getElem?_eq_none (not_lt.1 hlt), List.getElem?_eq_none (by simp; omega)]
      · rfl

theorem Handles.fresh
    (he : inserted.length + 2 ≤ e) : heap e = none := by
  cases hh : heap e with
  | none => rfl
  | some h =>
    have hd := hs.describes e h hh
    have := (List.getElem?_eq_some_iff.1 hd.inserted).1
    omega

omit hs

end Handles

/-! ### Pieces of the operations -/

/-- The cache has the entries `cached`, on the given lists; the hash table is left out. -/
structure Keeps (hash : K → ℕ) (inserted : List (K × V)) (held : ℕ → ℕ) (s : LRUCache K V)
    (cached lru in_use : List ℕ) : Prop where
  next_handle : s.next_handle = inserted.length + 2
  lists : Lists s.links held cached lru in_use
  handles : Handles hash inserted held s.heap s.usage s.deleted cached

/-- What a piece of an operation does not touch: the hash table, the capacity and the record of
evictions, and the keys of the handles other than one. -/
structure Frame (s s' : LRUCache K V) (e : ℕ) : Prop where
  table : s'.table = s.table
  capacity : s'.capacity = s.capacity
  evicted : s'.evicted = s.evicted
  heap : ∀ e', e' ≠ e → s'.heap e' = s.heap e'

section Keeps

variable {hash : K → ℕ} {inserted : List (K × V)} {held : ℕ → ℕ} {s : LRUCache K V}
  {cached lru in_use rest : List ℕ} {e : ℕ} {h : LRUHandle K V}

omit [DecidableEq K]

theorem frame_update {links : Links ℕ} {x : Option (LRUHandle K V)} {usage : ℕ}
    {deleted : List (ℕ × K × V)} :
    Frame s { s with
      links := links
      heap := Function.update s.heap e x
      usage := usage
      deleted := deleted } e :=
  ⟨rfl, rfl, rfl, fun _ he' => update_of_ne he' _ _⟩

variable (hk : Keeps hash inserted held s cached lru in_use)
include hk

theorem Keeps.next_free :
    s.heap s.next_handle = none ∧ s.next_handle ∉ cached := by
  have hfresh : s.heap s.next_handle = none := hk.handles.fresh hk.next_handle.ge
  refine ⟨hfresh, fun he => ?_⟩
  obtain ⟨h, hh⟩ := hk.handles.allocated _ he
  rw [hfresh] at hh
  cases hh

theorem Keeps.mem_of_zero (he : e ∈ lru) :
    ∃ h, s.heap e = some h ∧ h.in_cache = true ∧ h.refs = 1 := by
  obtain ⟨hc, hzero⟩ := (hk.lists.mem_lru e).1 he
  obtain ⟨h, hh⟩ := hk.handles.allocated e hc
  have hd := hk.handles.describes e h hh
  have hin := hd.in_cache.2 hc
  have hrefs := hd.refs
  rw [hin, if_pos rfl, hzero] at hrefs
  exact ⟨h, hh, hin, hrefs⟩

/-- **A client gets a reference.** -/
theorem Keeps.ref (hh : s.heap e = some h)
    (hfits : held e + 2 < 2 ^ 32) :
    ∃ s' lru' in_use', s.ref e = some s' ∧ Frame s s' e ∧
      (∃ h', s'.heap e = some h' ∧ h'.key = h.key ∧ h'.hash = h.hash) ∧
      Keeps hash inserted (Function.update held e (held e + 1)) s' cached lru' in_use' := by
  have hd := hk.handles.describes e h hh
  have hrefs := hd.refs
  have hmod : (h.refs + 1) % 2 ^ 32 = h.refs + 1 := by
    refine Nat.mod_eq_of_lt ?_
    split_ifs at hrefs <;> omega
  have hhandles : Handles hash inserted (Function.update held e (held e + 1))
      (Function.update s.heap e (some { h with refs := (h.refs + 1) % 2 ^ 32 })) s.usage s.deleted
      cached := by
    refine hk.handles.update _ hh rfl rfl rfl rfl ?_ ?_ hd.in_cache hk.handles.nodup
      (fun _ _ => Iff.rfl) hk.handles.usage
    · simp only [hmod]
      omega
    · simp only [hmod]
      exact Nat.succ_pos _
  have hkey : ∃ h', Function.update s.heap e (some { h with refs := (h.refs + 1) % 2 ^ 32 }) e =
      some h' ∧ h'.key = h.key ∧ h'.hash = h.hash := ⟨_, update_self _ _ _, rfl, rfl⟩
  rw [LRUCache.ref, hh, map_some]
  by_cases hmove : h.refs = 1 ∧ h.in_cache = true
  · -- from `lru_` to `in_use_`
    simp only [if_pos hmove]
    have hcached := hd.in_cache.1 hmove.2
    have hzero : held e = 0 := by
      rw [hmove.1, hmove.2, if_pos rfl] at hrefs
      omega
    refine ⟨_, lru.erase e, in_use.erase e ++ [e], rfl, frame_update, hkey, hk.next_handle, ?_,
      hhandles⟩
    exact (hk.lists.erase hk.handles.nodup hcached).append_in_use hk.handles.nodup.not_mem_erase
      hd.two_le (Nat.succ_pos _) (mem_iff_erase hk.handles.nodup hcached)
  · simp only [if_neg hmove]
    refine ⟨_, lru, in_use, rfl, frame_update, hkey, hk.next_handle, ?_, hhandles⟩
    refine hk.lists.update fun he => ?_
    have hin := hd.in_cache.2 he
    rw [hin, if_pos rfl] at hrefs
    have : h.refs ≠ 1 := fun h1 => hmove ⟨h1, hin⟩
    omega

/-- **A client gives a reference back.** -/
theorem Keeps.unref (hheld : 0 < held e) :
    ∃ s' lru' in_use', s.unref e = some s' ∧ Frame s s' e ∧
      (e ∈ cached → ∀ h, s.heap e = some h →
        ∃ h', s'.heap e = some h' ∧ h'.key = h.key ∧ h'.hash = h.hash) ∧
      Keeps hash inserted (Function.update held e (held e - 1)) s' cached lru' in_use' := by
  obtain ⟨h, hh⟩ : ∃ h, s.heap e = some h := by
    cases hh : s.heap e with
    | none => exact absurd (hk.handles.free e hh) hheld.ne'
    | some h => exact ⟨h, rfl⟩
  have hd := hk.handles.describes e h hh
  have hrefs := hd.refs
  have hpos := hd.refs_pos
  rw [LRUCache.unref, hh, bind_some, if_neg hpos.ne']
  by_cases hlast : h.refs - 1 = 0
  · -- the entry has left the cache, and this is the last reference
    have hin : h.in_cache = false := by
      by_contra hin
      rw [Bool.not_eq_false] at hin
      rw [hin, if_pos rfl] at hrefs
      omega
    have hout : e ∉ cached := fun he => by
      rw [hd.in_cache.2 he] at hin
      cases hin
    have hone : held e - 1 = 0 := by
      rw [hin] at hrefs
      simp only [Bool.false_eq_true, if_false] at hrefs
      omega
    rw [if_pos hlast, hin, hone]
    simp only [Bool.false_eq_true, if_false]
    refine ⟨_, lru, in_use, rfl, frame_update, fun he => absurd he hout, hk.next_handle, ?_, ?_⟩
    · exact hk.lists.update fun he => absurd he hout
    · exact hk.handles.deallocate hh hk.handles.nodup hout (fun _ _ => Iff.rfl) hk.handles.usage
  · rw [if_neg hlast]
    have hhandles : Handles hash inserted (Function.update held e (held e - 1))
        (Function.update s.heap e (some { h with refs := h.refs - 1 })) s.usage s.deleted
        cached := by
      refine hk.handles.update _ hh rfl rfl rfl rfl ?_ (Nat.pos_of_ne_zero hlast) hd.in_cache
        hk.handles.nodup (fun _ _ => Iff.rfl) hk.handles.usage
      simp only
      omega
    have hkey : e ∈ cached → ∀ g, some h = some g → ∃ h',
        Function.update s.heap e (some { h with refs := h.refs - 1 }) e = some h' ∧
        h'.key = g.key ∧ h'.hash = g.hash := fun _ g hg =>
      ⟨_, update_self _ _ _, by rw [← some.inj hg], by rw [← some.inj hg]⟩
    by_cases hmove : h.in_cache = true ∧ h.refs - 1 = 1
    · -- from `in_use_` to `lru_`
      simp only [if_pos hmove]
      have hcached := hd.in_cache.1 hmove.1
      have hzero : held e - 1 = 0 := by
        rw [hmove.1, if_pos rfl] at hrefs
        omega
      refine ⟨_, lru.erase e ++ [e], in_use.erase e, rfl, frame_update, hkey, hk.next_handle, ?_,
        hhandles⟩
      rw [hzero]
      exact (hk.lists.erase hk.handles.nodup hcached).append_lru hk.handles.nodup.not_mem_erase
        hd.two_le (mem_iff_erase hk.handles.nodup hcached)
    · simp only [if_neg hmove]
      refine ⟨_, lru, in_use, rfl, frame_update, hkey, hk.next_handle, ?_, hhandles⟩
      refine hk.lists.update fun he => ?_
      have hin := hd.in_cache.2 he
      rw [hin, if_pos rfl] at hrefs
      have : h.refs - 1 ≠ 1 := fun h1 => hmove ⟨hin, h1⟩
      omega

/-- **An entry leaves the cache.** -/
theorem Keeps.finishErase
    (hperm : cached.Perm (e :: rest)) :
    ∃ s', s.finishErase (some e) = some s' ∧ Frame s s' e ∧
      Keeps hash inserted held s' rest (lru.erase e) (in_use.erase e) := by
  have hs := hk.handles.perm hperm
  have hcached : e ∈ cached := hperm.mem_iff.2 List.mem_cons_self
  obtain ⟨hout, hnodup⟩ := nodup_cons.1 hs.nodup
  obtain ⟨h, hh⟩ := hk.handles.allocated e hcached
  have hd := hk.handles.describes e h hh
  have hin := hd.in_cache.2 hcached
  have hrefs := hd.refs
  rw [hin, if_pos rfl] at hrefs
  have hmem : ∀ e', e' ≠ e → (e' ∈ rest ↔ e' ∈ cached) := fun e' he' => by
    rw [hperm.mem_iff, List.mem_cons]
    simp only [he', false_or]
  have hlists : Lists (s.links.remove e) held rest (lru.erase e) (in_use.erase e) := by
    refine hk.lists.remove hcached fun e' => ?_
    by_cases heq : e' = e
    · subst heq
      exact iff_of_false hout fun hc => hc.2 rfl
    · rw [hmem e' heq]
      simp only [heq, ne_eq, not_false_eq_true, and_true]
  have husage : (s.usage + (2 ^ 64 - h.charge % 2 ^ 64)) % 2 ^ 64 =
      (rest.map (chargeOf s.heap)).sum % 2 ^ 64 := by
    have hsum := hs.usage
    rw [map_cons, sum_cons, chargeOf, hh, map_some, getD_some] at hsum
    omega
  rw [LRUCache.finishErase, hh, bind_some, if_pos hin, LRUCache.unref]
  simp only [update_self, bind_some, update_idem]
  rw [if_neg hd.refs_pos.ne']
  by_cases hzero : held e = 0
  · have hlast : h.refs - 1 = 0 := by omega
    simp only [if_pos hlast, Bool.false_eq_true, if_false]
    refine ⟨_, rfl, frame_update, hk.next_handle, hlists, ?_⟩
    have := hk.handles.deallocate hh hnodup hout hmem husage
    rwa [Function.update_eq_self_iff.2 hzero.symm] at this
  · have hmore : ¬ h.refs - 1 = 0 := by omega
    simp only [if_neg hmore, Bool.false_eq_true, false_and, if_false]
    refine ⟨_, rfl, frame_update, hk.next_handle, hlists, ?_⟩
    have := hk.handles.update (n := held e) { h with in_cache := false, refs := h.refs - 1 } hh
      rfl rfl rfl rfl
      (by simp only [Bool.false_eq_true, if_false]; omega) (Nat.pos_of_ne_zero hmore)
      (iff_of_false Bool.false_ne_true hout) hnodup hmem husage
    rwa [update_eq_self] at this

theorem Keeps.finishErase_perm {r : Option ℕ}
    (hperm : cached.Perm (r.toList ++ rest)) :
    ∃ s' lru' in_use', s.finishErase r = some s' ∧ s'.table = s.table ∧ s'.capacity = s.capacity ∧
      s'.evicted = s.evicted ∧ (∀ e ∈ rest, s'.heap e = s.heap e) ∧
      Keeps hash inserted held s' rest lru' in_use' := by
  cases r with
  | none =>
    exact ⟨s, lru, in_use, rfl, rfl, rfl, rfl, fun _ _ => rfl, hk.next_handle,
      hk.lists.congr (fun _ => hperm.mem_iff.symm) fun _ _ => Iff.rfl, hk.handles.perm hperm⟩
  | some e =>
    obtain ⟨s', hs', hframe, hk'⟩ := hk.finishErase hperm
    have hout : e ∉ rest := (nodup_cons.1 (hperm.nodup_iff.1 hk.handles.nodup)).1
    exact ⟨s', _, _, hs', hframe.table, hframe.capacity, hframe.evicted,
      fun e' he' => hframe.heap e' fun heq => hout (heq ▸ he'), hk'⟩

/-- **A new entry** is in the cache and in use. -/
theorem Keeps.linkEntry (key : K) (value : V)
    (charge : ℕ) :
    Keeps hash (inserted ++ [(key, value)]) (Function.update held s.next_handle 1)
      (s.linkEntry key (hash key) value charge) (s.next_handle :: cached) lru
      (in_use ++ [s.next_handle]) := by
  have hnext := hk.next_handle
  obtain ⟨hfresh, hout⟩ := hk.next_free
  refine ⟨?_, ?_, ?_⟩
  · simp only [LRUCache.linkEntry, hnext, length_append, length_singleton]
  · exact hk.lists.append_in_use hout (by omega) Nat.one_pos fun e' => List.mem_cons
  · simp only [LRUCache.linkEntry]
    rw [hnext] at hfresh hout ⊢
    refine hk.handles.allocate ⟨key, hash key, value, charge, true, 2⟩ hfresh rfl rfl
      (iff_of_true rfl List.mem_cons_self)
      (nodup_cons.2 ⟨hout, hk.handles.nodup⟩) (fun e' he' => ?_) ?_
    · rw [List.mem_cons]
      simp only [he', false_or]
    · rw [map_cons, sum_cons, map_chargeOf_update hout, chargeOf, update_self, map_some,
        getD_some, hk.handles.usage]
      simp only
      omega

theorem Keeps.looseEntry (key : K) (value : V)
    (charge : ℕ) :
    Keeps hash (inserted ++ [(key, value)]) (Function.update held s.next_handle 1)
      (s.looseEntry key (hash key) value charge) cached lru in_use := by
  have hnext := hk.next_handle
  obtain ⟨hfresh, hout⟩ := hk.next_free
  refine ⟨?_, ?_, ?_⟩
  · simp only [LRUCache.looseEntry, hnext, length_append, length_singleton]
  · exact hk.lists.update fun he => absurd he hout
  · simp only [LRUCache.looseEntry]
    rw [hnext] at hfresh hout ⊢
    refine hk.handles.allocate ⟨key, hash key, value, charge, false, 1⟩ hfresh rfl rfl
      (iff_of_false Bool.false_ne_true hout)
      hk.handles.nodup (fun _ _ => Iff.rfl) ?_
    rw [map_chargeOf_update hout, hk.handles.usage]

omit hk

end Keeps

end LRUCache

end Bourbon
