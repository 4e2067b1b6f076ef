import Mathlib.Data.List.Nodup
import Mathlib.Data.Nat.Bitwise
import Mathlib.Logic.Function.Basic
import Mathlib.Tactic.Ring

/-!
# The hash table of the cache

`HandleTable` of `util/cache.cc`: an array of buckets, each a chain of handles.  The chains are
lists in the order of `next_hash`.  Handles are addresses; what stands there is given by `heap`.

* `HandleTable.Holds` : the table holds the handles of a list, one for a key;
* `HandleTable.lookup_spec`, `insert_spec`, `remove_spec` : what the operations return and leave.

The numbers `length_` and `elems_` have 32 bits, so the table has room for `2 ^ 31` handles: with
more, the loop of `Resize` does not end.
-/

namespace Bourbon

open List Option

open scoped List

/-- `LRUHandle`, without the pointers of lists and chains. -/
structure LRUHandle (K V : Type*) where
  key : K
  /-- Hash of the key. -/
  hash : ℕ
  value : V
  charge : ℕ
  /-- Whether the entry is in the cache. -/
  in_cache : Bool
  /-- References, including the cache reference, if present. -/
  refs : ℕ

/-- The hash table of a cache. -/
structure HandleTable where
  length : ℕ
  elems : ℕ
  /-- The chains of the buckets. -/
  list : List (List ℕ)

namespace HandleTable

variable {K V : Type*} [DecidableEq K]

/-- `FindPointer` on a chain: the handles before the slot, and those from the slot on; `none` is an
access to memory that has been freed. -/
def findPointer (heap : ℕ → Option (LRUHandle K V)) (key : K) (hash : ℕ) :
    List ℕ → Option (List ℕ × List ℕ)
  | [] => some ([], [])
  | e :: chain =>
    match heap e with
    | none => none
    | some h =>
      if h.hash ≠ hash ∨ key ≠ h.key then
        (findPointer heap key hash chain).map fun p => (e :: p.1, p.2)
      else some ([], e :: chain)

/-- The bucket of a hash. -/
def bucket (t : HandleTable) (hash : ℕ) : ℕ := hash &&& (t.length - 1)

/-- The slot of a key in the table. -/
def findSlot (t : HandleTable) (heap : ℕ → Option (LRUHandle K V)) (key : K) (hash : ℕ) :
    Option (List ℕ × List ℕ) :=
  findPointer heap key hash (t.list.getD (t.bucket hash) [])

/-- `HandleTable::Lookup`. -/
def lookup (t : HandleTable) (heap : ℕ → Option (LRUHandle K V)) (key : K) (hash : ℕ) :
    Option (Option ℕ) :=
  (t.findSlot heap key hash).map fun p => p.2.head?

/-- The loop of `Resize` that doubles the length; after 30 rounds the length has become zero. -/
def growLength (elems : ℕ) : ℕ → ℕ → Option ℕ
  | 0, _ => none
  | fuel + 1, new_length =>
    if new_length < elems then growLength elems fuel (new_length * 2 % 2 ^ 32) else some new_length

/-- The loops of `Resize` over all handles. -/
def rehash (heap : ℕ → Option (LRUHandle K V)) (new_length : ℕ) :
    List ℕ → List (List ℕ) → Option (List (List ℕ))
  | [], new_list => some new_list
  | e :: handles, new_list =>
    match heap e with
    | none => none
    | some h =>
      rehash heap new_length handles
        (new_list.set (h.hash &&& (new_length - 1))
          (e :: new_list.getD (h.hash &&& (new_length - 1)) []))

/-- `Resize`; the number of handles is checked by an assertion. -/
def resize (t : HandleTable) (heap : ℕ → Option (LRUHandle K V)) : Option HandleTable :=
  (growLength t.elems 30 4).bind fun new_length =>
    (rehash heap new_length t.list.flatten (List.replicate new_length [])).bind fun new_list =>
      if t.elems = t.list.flatten.length then some ⟨new_length, t.elems, new_list⟩ else none

/-- The constructor. -/
def new : HandleTable := ⟨4, 0, [[], [], [], []]⟩

/-- `Insert`: the table, and the handle that was replaced. -/
def insert (t : HandleTable) (heap : ℕ → Option (LRUHandle K V)) (e : ℕ) :
    Option (HandleTable × Option ℕ) :=
  (heap e).bind fun h =>
    (t.findSlot heap h.key h.hash).bind fun p =>
      let old := p.2.head?
      let t' := { t with list := t.list.set (t.bucket h.hash) (p.1 ++ e :: p.2.tail) }
      if old = none then
        let t' := { t' with elems := (t.elems + 1) % 2 ^ 32 }
        if t'.elems > t'.length then (t'.resize heap).map fun t' => (t', none)
        else some (t', none)
      else some (t', old)

/-- `Remove`: the table, and the handle that was removed. -/
def remove (t : HandleTable) (heap : ℕ → Option (LRUHandle K V)) (key : K) (hash : ℕ) :
    Option (HandleTable × Option ℕ) :=
  (t.findSlot heap key hash).map fun p =>
    match p.2 with
    | [] => (t, none)
    | e :: rest =>
      ({ t with list := t.list.set (t.bucket hash) (p.1 ++ rest), elems := t.elems - 1 }, some e)

/-! ### Contents -/

section Contents

variable {heap heap' : ℕ → Option (LRUHandle K V)} {hash : K → ℕ} {t : HandleTable}
  {handles handles' : List ℕ} {e : ℕ} {h : LRUHandle K V} {key : K}

omit [DecidableEq K]

/-- The handles of a list can be in a table: they are allocated, and there is one for a key. -/
structure Distinct (heap : ℕ → Option (LRUHandle K V)) (hash : K → ℕ) (handles : List ℕ) :
    Prop where
  nodup : handles.Nodup
  allocated : ∀ e ∈ handles, ∃ h, heap e = some h ∧ h.hash = hash h.key
  keys : ∀ e ∈ handles, ∀ e' ∈ handles, ∀ h h', heap e = some h → heap e' = some h' →
    h.key = h'.key → e = e'

/-- The handles of a list are in the chains of their buckets. -/
structure Placed (heap : ℕ → Option (LRUHandle K V)) (length : ℕ) (list : List (List ℕ))
    (handles : List ℕ) : Prop where
  size : list.length = length
  perm : list.flatten.Perm handles
  bucket : ∀ (i : ℕ) (chain : List ℕ), list[i]? = some chain → ∀ e ∈ chain, ∀ h,
    heap e = some h → h.hash &&& (length - 1) = i

/-- The table holds the handles of a list. -/
structure Holds (heap : ℕ → Option (LRUHandle K V)) (hash : K → ℕ) (t : HandleTable)
    (handles : List ℕ) : Prop where
  distinct : Distinct heap hash handles
  placed : Placed heap t.length t.list handles
  length_pos : 0 < t.length
  elems : t.elems = handles.length

/-- The handle of a key, if there is one, and the handles without it. -/
def Taken (heap : ℕ → Option (LRUHandle K V)) (key : K) (handles : List ℕ) :
    Option ℕ → List ℕ → Prop
  | none, rest => rest = handles ∧ ∀ e ∈ handles, ∀ h, heap e = some h → h.key ≠ key
  | some e, rest => handles.Perm (e :: rest) ∧ ∃ h, heap e = some h ∧ h.key = key

theorem Distinct.perm (hd : Distinct heap hash handles) (hp : handles.Perm handles') :
    Distinct heap hash handles' :=
  ⟨hp.nodup_iff.1 hd.nodup, fun e he => hd.allocated e (hp.mem_iff.2 he),
    fun e he e' he' => hd.keys e (hp.mem_iff.2 he) e' (hp.mem_iff.2 he')⟩

theorem Distinct.tail (hd : Distinct heap hash (e :: handles)) : Distinct heap hash handles :=
  ⟨(nodup_cons.1 hd.nodup).2, fun e he => hd.allocated e (mem_cons_of_mem _ he),
    fun e he e' he' => hd.keys e (mem_cons_of_mem _ he) e' (mem_cons_of_mem _ he')⟩

variable {r : Option ℕ} {rest : List ℕ}

theorem Taken.perm (htaken : Taken heap key handles r rest) :
    handles.Perm (r.toList ++ rest) := by
  cases r with
  | none => exact htaken.1 ▸ List.Perm.refl _
  | some e => exact htaken.1

theorem Taken.congr (htaken : Taken heap key handles r rest)
    (hheap : ∀ e ∈ handles, heap' e = heap e) : Taken heap' key handles r rest := by
  cases r with
  | none =>
    refine ⟨htaken.1, fun e he h hh => htaken.2 e he h ?_⟩
    rw [← hheap e he, hh]
  | some e =>
    obtain ⟨hperm, h, hh, hkey⟩ := htaken
    exact ⟨hperm, h, (hheap e (hperm.mem_iff.2 mem_cons_self)).trans hh, hkey⟩

theorem Taken.mem_iff (htaken : Taken heap key handles r rest)
    (hd : Distinct heap hash handles) :
    e ∈ rest ↔ e ∈ handles ∧ ∀ h, heap e = some h → h.key ≠ key := by
  cases r with
  | none =>
    obtain ⟨rfl, hnone⟩ := htaken
    exact ⟨fun he => ⟨he, hnone e he⟩, And.left⟩
  | some old =>
    obtain ⟨hperm, h, hh, hkey⟩ := htaken
    have hd' := hd.perm hperm
    rw [hperm.mem_iff, mem_cons]
    constructor
    · intro he
      refine ⟨Or.inr he, fun h' hh' hkey' => (nodup_cons.1 hd'.nodup).1 ?_⟩
      rwa [← hd'.keys e (mem_cons_of_mem _ he) old mem_cons_self h' h hh' hh
        (hkey'.trans hkey.symm)]
    · rintro ⟨rfl | he, hne⟩
      · exact absurd hkey (hne h hh)
      · exact he

theorem Distinct.cons (hd : Distinct heap hash handles) (he : e ∉ handles) (hh : heap e = some h)
    (hhash : h.hash = hash h.key)
    (hkey : ∀ e' ∈ handles, ∀ h', heap e' = some h' → h'.key ≠ h.key) :
    Distinct heap hash (e :: handles) where
  nodup := nodup_cons.2 ⟨he, hd.nodup⟩
  allocated := forall_mem_cons.2 ⟨⟨h, hh, hhash⟩, hd.allocated⟩
  keys := by
    intro e₁ he₁ e₂ he₂ h₁ h₂ hh₁ hh₂ heq
    rcases mem_cons.1 he₁ with hnew₁ | hmem₁ <;> rcases mem_cons.1 he₂ with hnew₂ | hmem₂
    · rw [hnew₁, hnew₂]
    · rw [hnew₁, hh] at hh₁
      obtain rfl := some.inj hh₁
      exact absurd heq.symm (hkey e₂ hmem₂ h₂ hh₂)
    · rw [hnew₂, hh] at hh₂
      obtain rfl := some.inj hh₂
      exact absurd heq (hkey e₁ hmem₁ h₁ hh₁)
    · exact hd.keys e₁ hmem₁ e₂ hmem₂ h₁ h₂ hh₁ hh₂ heq

theorem Holds.congr (ht : t.Holds heap hash handles)
    (hsame : ∀ e ∈ handles, ∀ h, heap e = some h →
      ∃ h', heap' e = some h' ∧ h'.key = h.key ∧ h'.hash = h.hash) :
    t.Holds heap' hash handles := by
  -- the handle before the change
  have hback : ∀ e ∈ handles, ∀ h', heap' e = some h' →
      ∃ h, heap e = some h ∧ h'.key = h.key ∧ h'.hash = h.hash := by
    intro e he h' hh'
    obtain ⟨h, hh, -⟩ := ht.distinct.allocated e he
    obtain ⟨h'', hh'', hkey, hhash⟩ := hsame e he h hh
    rw [hh'] at hh''
    obtain rfl := some.inj hh''
    exact ⟨h, hh, hkey, hhash⟩
  refine ⟨⟨ht.distinct.nodup, fun e he => ?_, ?_⟩, ⟨ht.placed.size, ht.placed.perm, ?_⟩,
    ht.length_pos, ht.elems⟩
  · obtain ⟨h, hh, hhash⟩ := ht.distinct.allocated e he
    obtain ⟨h', hh', hkey, hhash'⟩ := hsame e he h hh
    exact ⟨h', hh', by rw [hhash', hkey, hhash]⟩
  · intro e he e' he' h₁ h₂ hh₁ hh₂ heq
    obtain ⟨g₁, hg₁, hk₁, -⟩ := hback e he h₁ hh₁
    obtain ⟨g₂, hg₂, hk₂, -⟩ := hback e' he' h₂ hh₂
    exact ht.distinct.keys e he e' he' g₁ g₂ hg₁ hg₂ (hk₁ ▸ hk₂ ▸ heq)
  · intro i chain hchain e he h' hh'
    have hmem : e ∈ handles := ht.placed.perm.mem_iff.1
      (mem_flatten.2 ⟨chain, mem_of_getElem? hchain, he⟩)
    obtain ⟨h, hh, -, hhash⟩ := hback e hmem h' hh'
    rw [hhash]
    exact ht.placed.bucket i chain hchain e he h hh

theorem holds_new : new.Holds heap hash [] where
  distinct := ⟨nodup_nil, fun _ he => absurd he not_mem_nil,
    fun _ he => absurd he not_mem_nil⟩
  placed := ⟨rfl, List.Perm.refl [], by
    intro i chain hchain e he
    have hnil : chain = [] := by simpa [new] using mem_of_getElem? hchain
    exact absurd (hnil ▸ he) not_mem_nil⟩
  length_pos := by decide
  elems := rfl

/-! ### Chains -/

variable {n : ℕ}

theorem and_pred_lt (hn : 0 < n) (i : ℕ) : i &&& (n - 1) < n :=
  Nat.and_le_right.trans_lt (Nat.sub_lt hn Nat.one_pos)

variable {l : List (List ℕ)} {i : ℕ} {chain chain' : List ℕ}

theorem set_flatten_perm
    (before after : List ℕ) (hchain : l[i]? = some chain)
    (hbefore : (before ++ chain).Perm (after ++ chain')) :
    (before ++ l.flatten).Perm (after ++ (l.set i chain').flatten) := by
  obtain ⟨hi, rfl⟩ := List.getElem?_eq_some_iff.1 hchain
  have hsplit : l.flatten = (l.take i).flatten ++ (l[i] ++ (l.drop (i + 1)).flatten) := by
    conv_lhs => rw [← take_append_drop i l, drop_eq_getElem_cons hi]
    rw [flatten_append, flatten_cons]
  rw [hsplit, set_eq_take_append_cons_drop, if_pos hi, flatten_append,
    flatten_cons]
  calc before ++ ((l.take i).flatten ++ (l[i] ++ (l.drop (i + 1)).flatten))
      = before ++ (l.take i).flatten ++ l[i] ++ (l.drop (i + 1)).flatten := by
        simp only [append_assoc]
    _ ~ (l.take i).flatten ++ (before ++ l[i]) ++ (l.drop (i + 1)).flatten := by
        refine List.Perm.append_right _ ?_
        rw [← append_assoc]
        exact List.Perm.append_right _ perm_append_comm
    _ ~ (l.take i).flatten ++ (after ++ chain') ++ (l.drop (i + 1)).flatten :=
        (hbefore.append_left _).append_right _
    _ ~ after ++ (l.take i).flatten ++ chain' ++ (l.drop (i + 1)).flatten := by
        refine List.Perm.append_right _ ?_
        rw [← append_assoc]
        exact List.Perm.append_right _ perm_append_comm
    _ = after ++ ((l.take i).flatten ++ (chain' ++ (l.drop (i + 1)).flatten)) := by
        simp only [append_assoc]

theorem bucket_set
    (hbucket : ∀ (i : ℕ) (chain : List ℕ), l[i]? = some chain → ∀ e ∈ chain, ∀ h,
      heap e = some h → h.hash &&& (n - 1) = i)
    (hchain' : ∀ e ∈ chain', ∀ h, heap e = some h → h.hash &&& (n - 1) = i) :
    ∀ (j : ℕ) (chain : List ℕ), (l.set i chain')[j]? = some chain → ∀ e ∈ chain, ∀ h,
      heap e = some h → h.hash &&& (n - 1) = j := by
  intro j chain hj e he h hh
  rw [List.getElem?_set] at hj
  split_ifs at hj with heq hlt
  · obtain rfl := some.inj hj
    exact heq ▸ hchain' e he h hh
  · exact hbucket j chain hj e he h hh

variable [DecidableEq K]

/-- **The slot of a key in a chain.** -/
theorem findPointer_spec (key : K) (hash : ℕ)
    (hall : ∀ e ∈ chain, ∃ h, heap e = some h) :
    ∃ before rest, findPointer heap key hash chain = some (before, rest) ∧
      chain = before ++ rest ∧
      (∀ e ∈ before, ∀ h, heap e = some h → h.hash = hash → h.key ≠ key) ∧
      ∀ e, rest.head? = some e → ∃ h, heap e = some h ∧ h.key = key := by
  induction chain with
  | nil => exact ⟨[], [], rfl, rfl, fun e he => absurd he not_mem_nil, fun e he => (by cases he)⟩
  | cons e chain ih =>
    obtain ⟨h, hh⟩ := hall e mem_cons_self
    rw [findPointer, hh]
    simp only
    split_ifs with hc
    · obtain ⟨before, rest, hfind, hsplit, hbefore, hrest⟩ :=
        ih fun e he => hall e (mem_cons_of_mem _ he)
      refine ⟨e :: before, rest, by rw [hfind, map_some], by rw [hsplit, cons_append],
        ?_, hrest⟩
      intro e' he' h' hh' hhash hkey
      rcases mem_cons.1 he' with rfl | he'
      · rw [hh] at hh'
        obtain rfl := some.inj hh'
        rcases hc with hne | hne
        · exact hne hhash
        · exact hne hkey.symm
      · exact hbefore e' he' h' hh' hhash hkey
    · refine ⟨[], e :: chain, rfl, rfl, fun e he => absurd he not_mem_nil, ?_⟩
      intro e' he'
      obtain rfl := some.inj he'
      exact ⟨h, hh, by_contra fun hne => hc (Or.inr fun heq => hne heq.symm)⟩

/-- **The slot of a key in the table.** -/
theorem Holds.findSlot (ht : t.Holds heap hash handles) (key : K) :
    ∃ before rest, t.findSlot heap key (hash key) = some (before, rest) ∧
      t.list[t.bucket (hash key)]? = some (before ++ rest) ∧
      (rest = [] → ∀ e ∈ handles, ∀ h, heap e = some h → h.key ≠ key) ∧
      ∀ e, rest.head? = some e → e ∈ handles ∧ ∃ h, heap e = some h ∧ h.key = key := by
  have hlt : t.bucket (hash key) < t.list.length := by
    rw [ht.placed.size]
    exact and_pred_lt ht.length_pos _
  have hget := List.getElem?_eq_getElem hlt
  have hmem : ∀ e ∈ t.list[t.bucket (hash key)], e ∈ handles := fun e he =>
    ht.placed.perm.mem_iff.1 (mem_flatten.2 ⟨_, getElem_mem hlt, he⟩)
  obtain ⟨before, rest, hfind, hsplit, hbefore, hrest⟩ := findPointer_spec key (hash key)
    fun e he => (ht.distinct.allocated e (hmem e he)).imp fun _ hh => hh.1
  refine ⟨before, rest, ?_, by rw [hget, hsplit], ?_, ?_⟩
  · rw [HandleTable.findSlot, getD_eq_getElem?_getD, hget, getD_some, hfind]
  · -- a handle with the key would be in this bucket
    rintro rfl e he h hh hkey
    rw [append_nil] at hsplit
    obtain ⟨h', hh', hhash⟩ := ht.distinct.allocated e he
    rw [hh] at hh'
    obtain rfl := some.inj hh'
    obtain ⟨chain, hchain, hin⟩ := mem_flatten.1 (ht.placed.perm.mem_iff.2 he)
    obtain ⟨i, hi⟩ := mem_iff_getElem?.1 hchain
    have hi' : t.bucket (hash key) = i := by
      rw [← ht.placed.bucket i chain hi e hin h hh, hhash, hkey]
      rfl
    rw [← hi', hget] at hi
    obtain rfl := some.inj hi
    exact hbefore e (hsplit ▸ hin) h hh (by rw [hhash, hkey]) hkey
  · intro e he
    have hin : e ∈ rest := mem_of_mem_head? (by rw [he]; rfl)
    exact ⟨hmem e (hsplit ▸ mem_append_right before hin), hrest e he⟩

/-- **Looking a key up.** -/
theorem Holds.lookup_spec (ht : t.Holds heap hash handles) (key : K) :
    ∃ r, t.lookup heap key (hash key) = some r ∧
      ∀ e, r = some e ↔ e ∈ handles ∧ ∃ h, heap e = some h ∧ h.key = key := by
  obtain ⟨before, rest, hfind, -, hnone, hsome⟩ := ht.findSlot key
  refine ⟨rest.head?, by rw [lookup, hfind, map_some], fun e => ⟨hsome e, ?_⟩⟩
  rintro ⟨he, h, hh, hkey⟩
  cases rest with
  | nil => exact absurd hkey (hnone rfl e he h hh)
  | cons e' rest =>
    obtain ⟨he', h', hh', hkey'⟩ := hsome e' rfl
    rw [ht.distinct.keys e he e' he' h h' hh hh' (hkey.trans hkey'.symm)]
    rfl

/-- **Removing a key.** -/
theorem Holds.remove_spec (ht : t.Holds heap hash handles) (key : K) :
    ∃ t' r rest, t.remove heap key (hash key) = some (t', r) ∧ Taken heap key handles r rest ∧
      t'.Holds heap hash rest := by
  obtain ⟨before, rest, hfind, hchain, hnone, hsome⟩ := ht.findSlot key
  rw [remove, hfind, map_some]
  cases rest with
  | nil => exact ⟨t, none, handles, rfl, ⟨rfl, hnone rfl⟩, ht⟩
  | cons e rest =>
    obtain ⟨he, hkey⟩ := hsome e rfl
    have hperm : handles.Perm (e :: handles.erase e) := perm_cons_erase he
    have hset : t.list.flatten.Perm
        (e :: (t.list.set (t.bucket (hash key)) (before ++ rest)).flatten) :=
      set_flatten_perm [] [e] hchain perm_middle
    refine ⟨_, some e, handles.erase e, rfl, ⟨hperm, hkey⟩, (ht.distinct.perm hperm).tail,
      ⟨?_, ?_, ?_⟩, ht.length_pos, ?_⟩
    · rw [length_set, ht.placed.size]
    · exact (perm_cons e).1 (hset.symm.trans (ht.placed.perm.trans hperm))
    · refine bucket_set ht.placed.bucket fun e' he' => ht.placed.bucket _ _ hchain e' ?_
      rcases mem_append.1 he' with he' | he'
      · exact mem_append_left _ he'
      · exact mem_append_right _ (mem_cons_of_mem e he')
    · simp only [ht.elems, length_erase_of_mem he]

/-! ### Growing -/

omit [DecidableEq K]

theorem growLength_spec {elems : ℕ} (helems : elems ≤ 2 ^ 31) (m : ℕ) (hm : m < 30) :
    ∃ n, growLength elems (m + 1) (4 * 2 ^ (29 - m)) = some n ∧ 0 < n := by
  induction m with
  | zero => exact ⟨4 * 2 ^ 29, if_neg (by omega), by decide⟩
  | succ m ih =>
    rw [growLength]
    split_ifs with hlt
    · have hpow : 4 * 2 ^ (29 - (m + 1)) * 2 = 4 * 2 ^ (29 - m) := by
        rw [show 29 - m = 29 - (m + 1) + 1 by omega, pow_succ]
        ring
      have hle : 2 ^ (29 - m) ≤ 2 ^ 29 := Nat.pow_le_pow_right (by decide) (Nat.sub_le 29 m)
      rw [hpow, Nat.mod_eq_of_lt (by omega)]
      exact ih (by omega)
    · exact ⟨_, rfl, Nat.mul_pos (by decide) (Nat.two_pow_pos _)⟩

/-- **Distributing handles** over new buckets. -/
theorem rehash_spec (hn : 0 < n) (es : List ℕ) {placed : List ℕ} {list : List (List ℕ)}
    (hall : ∀ e ∈ es, ∃ h, heap e = some h) (hp : Placed heap n list placed) :
    ∃ list', rehash heap n es list = some list' ∧ Placed heap n list' (es ++ placed) := by
  induction es generalizing list placed with
  | nil => exact ⟨list, rfl, hp⟩
  | cons e es ih =>
    obtain ⟨h, hh⟩ := hall e mem_cons_self
    have hlt : h.hash &&& (n - 1) < list.length := by
      rw [hp.size]
      exact and_pred_lt hn _
    have hget := List.getElem?_eq_getElem hlt
    have hgetD : list.getD (h.hash &&& (n - 1)) [] = list[h.hash &&& (n - 1)] :=
      getD_eq_getElem _ _ hlt
    have hplaced : Placed heap n (list.set (h.hash &&& (n - 1))
        (e :: list.getD (h.hash &&& (n - 1)) [])) (e :: placed) := by
      refine ⟨by rw [length_set, hp.size], ?_, bucket_set hp.bucket ?_⟩
      · rw [hgetD]
        refine List.Perm.trans ?_ (List.Perm.cons e hp.perm)
        exact (set_flatten_perm [e] [] hget (List.Perm.refl _)).symm
      · intro e' he' h' hh'
        rcases mem_cons.1 he' with rfl | he'
        · rw [hh] at hh'
          obtain rfl := some.inj hh'
          rfl
        · rw [hgetD] at he'
          exact hp.bucket _ _ hget e' he' h' hh'
    obtain ⟨list', hlist', hp'⟩ := ih (fun e he => hall e (mem_cons_of_mem _ he)) hplaced
    refine ⟨list', by rw [rehash, hh]; exact hlist', hp'.size, hp'.perm.trans ?_, hp'.bucket⟩
    exact perm_middle

/-- **Resizing keeps the handles.** -/
theorem Holds.resize (ht : t.Holds heap hash handles) (helems : t.elems ≤ 2 ^ 31) :
    ∃ t', t.resize heap = some t' ∧ t'.Holds heap hash handles := by
  obtain ⟨n, hgrow, hn⟩ : ∃ n, growLength t.elems 30 4 = some n ∧ 0 < n :=
    growLength_spec helems 29 (by decide)
  have hempty : Placed heap n (List.replicate n []) [] := by
    refine ⟨length_replicate, by simp, fun i chain hchain e he => ?_⟩
    rw [eq_of_mem_replicate (mem_of_getElem? hchain)] at he
    exact absurd he not_mem_nil
  obtain ⟨list', hlist', hp⟩ := rehash_spec hn t.list.flatten (fun e he =>
    (ht.distinct.allocated e (ht.placed.perm.mem_iff.1 he)).imp fun _ hh => hh.1) hempty
  refine ⟨⟨n, t.elems, list'⟩, ?_, ht.distinct, ⟨hp.size, ?_, hp.bucket⟩, hn, ht.elems⟩
  · have hcount : t.elems = t.list.flatten.length := by
      rw [ht.elems, ht.placed.perm.length_eq]
    rw [HandleTable.resize, hgrow, bind_some, hlist', bind_some, if_pos hcount]
  · rw [append_nil] at hp
    exact hp.perm.trans ht.placed.perm

variable [DecidableEq K]

/-- **Inserting a handle** replaces the handle of its key. -/
theorem Holds.insert_spec (ht : t.Holds heap hash handles) (he : e ∉ handles)
    (hh : heap e = some h) (hhash : h.hash = hash h.key) (helems : t.elems < 2 ^ 31) :
    ∃ t' r rest, t.insert heap e = some (t', r) ∧ Taken heap h.key handles r rest ∧
      t'.Holds heap hash (e :: rest) := by
  obtain ⟨before, rest, hfind, hchain, hnone, hsome⟩ := ht.findSlot h.key
  have hown : ∀ e', e' = e → ∀ h', heap e' = some h' → h'.hash &&& (t.length - 1) =
      t.bucket (hash h.key) := by
    rintro e' rfl h' hh'
    rw [hh] at hh'
    obtain rfl := some.inj hh'
    rw [hhash]
    rfl
  rw [insert, hh, bind_some, hhash, hfind, bind_some]
  cases rest with
  | nil =>
    simp only [List.head?_nil, if_true, tail_nil]
    obtain ⟨t', ht'⟩ : ∃ t' : HandleTable, t' = ⟨t.length, (t.elems + 1) % 2 ^ 32,
      t.list.set (t.bucket (hash h.key)) (before ++ [e])⟩ := ⟨_, rfl⟩
    have hmod : (t.elems + 1) % 2 ^ 32 = t.elems + 1 := Nat.mod_eq_of_lt (by omega)
    have hholds : t'.Holds heap hash (e :: handles) := by
      rw [ht', hmod]
      refine ⟨ht.distinct.cons he hh hhash (hnone rfl), ⟨?_, ?_, ?_⟩, ht.length_pos, ?_⟩
      · rw [length_set, ht.placed.size]
      · refine List.Perm.trans ?_ (List.Perm.cons e ht.placed.perm)
        refine (set_flatten_perm [e] [] hchain ?_).symm
        rw [append_nil]
        exact (perm_append_singleton e before).symm
      · refine bucket_set ht.placed.bucket fun e' he' => ?_
        rcases mem_append.1 he' with he' | he'
        · exact ht.placed.bucket _ _ hchain e' (mem_append_left _ he')
        · exact hown e' (mem_singleton.1 he')
      · simp only [length_cons, ht.elems]
    rw [← ht']
    split_ifs with hfull
    · obtain ⟨t'', hresize, hholds'⟩ := hholds.resize (by rw [ht']; simp only; omega)
      exact ⟨t'', none, handles, by rw [hresize, map_some], ⟨rfl, hnone rfl⟩, hholds'⟩
    · exact ⟨t', none, handles, rfl, ⟨rfl, hnone rfl⟩, hholds⟩
  | cons old rest =>
    obtain ⟨hold, hkey⟩ := hsome old rfl
    simp only [List.head?_cons, reduceCtorEq, if_false, tail_cons]
    have hperm : handles.Perm (old :: handles.erase old) := perm_cons_erase hold
    have htaken : Taken heap h.key handles (some old) (handles.erase old) := ⟨hperm, hkey⟩
    have hset : (e :: t.list.flatten).Perm
        (old :: (t.list.set (t.bucket (hash h.key)) (before ++ e :: rest)).flatten) := by
      refine set_flatten_perm [e] [old] hchain ?_
      calc e :: (before ++ old :: rest) ~ e :: old :: (before ++ rest) :=
            List.Perm.cons e perm_middle
        _ ~ old :: e :: (before ++ rest) := List.Perm.swap old e _
        _ ~ old :: (before ++ e :: rest) := List.Perm.cons old perm_middle.symm
    refine ⟨_, some old, handles.erase old, rfl, htaken, (ht.distinct.perm hperm).tail.cons
      (fun hmem => he (mem_of_mem_erase hmem)) hh hhash fun e' he' =>
      ((htaken.mem_iff ht.distinct).1 he').2, ⟨?_, ?_, ?_⟩, ht.length_pos, ?_⟩
    · rw [length_set, ht.placed.size]
    · refine (perm_cons old).1 (hset.symm.trans ?_)
      exact (List.Perm.cons e (ht.placed.perm.trans hperm)).trans (List.Perm.swap old e _)
    · refine bucket_set ht.placed.bucket fun e' he' => ?_
      rcases mem_append.1 he' with he' | he'
      · exact ht.placed.bucket _ _ hchain e' (mem_append_left _ he')
      · rcases mem_cons.1 he' with he' | he'
        · exact hown e' he'
        · exact ht.placed.bucket _ _ hchain e' (mem_append_right _ (mem_cons_of_mem _ he'))
    · simp only [length_cons, length_erase_of_mem hold, ht.elems]
      have := length_pos_of_mem hold
      omega

end Contents

end HandleTable

end Bourbon
