import Mathlib.Data.List.Find
import Bourbon.Db.Lookup

/-!
# Memtables as byte strings

`db/memtable.cc`: a memtable entry is one byte string, the length-prefixed internal key and the
length-prefixed value.  The entries are compared through their decoded keys, and a lookup is one
seek to a length-prefixed lookup key.  The skip list is the list of its entries, in order.

* `MemTable.add_entry`, `MemTable.get_entries` : the byte strings stand for the sorted entries of
  `memTableAdd` and `tableLookup`, on which the database is modelled;
* `MemTable.get_finds` : after any additions a lookup finds the newest visible entry.
-/

namespace Bourbon

open List

namespace MemTable

/-- `GetLengthPrefixedSlice` of `memtable.cc`: the slice, and what follows it.  The length is not
checked, and the source assumes that there is one. -/
def getLengthPrefixedSlice (data : Bytes) : Bytes × Bytes :=
  match getVarint32Ptr data with
  | none => ([], [])
  | some (len, p) => (p.take len, p.drop len)

/-- `KeyComparator::operator()`. -/
def keyComparator (aptr bptr : Bytes) : Ordering :=
  InternalKeyComparator.compare (getLengthPrefixedSlice aptr).1 (getLengthPrefixedSlice bptr).1

/-- `MemTable::Add`.  The skip list puts an entry before the first one that is not less. -/
def add (table : List Bytes) (s : ℕ) (type : ValueType) (key value : Bytes) : List Bytes :=
  let buf := encodeVarint32 ((key.length + 8) % 2 ^ 32) ++ (InternalKey.mk key s type).encode ++
    (encodeVarint32 (value.length % 2 ^ 32) ++ value)
  table.orderedInsert (fun a b => keyComparator b a ≠ .lt) buf

/-- `LookupKey::memtable_key`. -/
def memtableKey (user_key : Bytes) (s : ℕ) : Bytes :=
  encodeVarint32 ((user_key.length + 8) % 2 ^ 32) ++ (lookupKey user_key s).encode

/-- `MemTable::Get`: `none` if it returns false, `some none` for `NotFound`. -/
def get (table : List Bytes) (user_key : Bytes) (s : ℕ) : Option (Option Bytes) :=
  match table.find? fun entry => keyComparator entry (memtableKey user_key s) ≠ .lt with
  | none => none
  | some entry =>
    match getVarint32Ptr entry with
    | none => none
    | some (key_length, key_ptr) =>
      if Slice.compare (key_ptr.take (key_length - 8)) user_key = .eq then
        match decodeFixed64 (key_ptr.drop (key_length - 8)) % 256 with
        | 0 => some none
        | 1 => some (some (getLengthPrefixedSlice (key_ptr.drop key_length)).1)
        | _ => none
      else none

/-! ### Entries -/

/-- The bytes of an entry. -/
def entryBytes (e : Entry Bytes Bytes) : Bytes :=
  putLengthPrefixedSlice e.1.encode ++ putLengthPrefixedSlice e.2

/-- Lengths have 32 bits, sequence numbers 56. -/
structure Short (e : Entry Bytes Bytes) : Prop where
  key : e.1.user_key.length + 8 < 2 ^ 32
  value : e.2.length < 2 ^ 32
  sequence : e.1.sequence ≤ kMaxSequenceNumber

theorem putLengthPrefixedSlice_encode (k : InternalKey Bytes) :
    putLengthPrefixedSlice k.encode =
      encodeVarint32 ((k.user_key.length + 8) % 2 ^ 32) ++ k.encode := by
  rw [putLengthPrefixedSlice, InternalKey.length_encode]

theorem getVarint32Ptr_putLengthPrefixedSlice {value : Bytes} (h : value.length < 2 ^ 32)
    (rest : Bytes) :
    getVarint32Ptr (putLengthPrefixedSlice value ++ rest) = some (value.length, value ++ rest) := by
  rw [putLengthPrefixedSlice, Nat.mod_eq_of_lt h, append_assoc]
  exact getVarint32Ptr_encodeVarint32 h _

theorem getLengthPrefixedSlice_put {value : Bytes} (h : value.length < 2 ^ 32) (rest : Bytes) :
    getLengthPrefixedSlice (putLengthPrefixedSlice value ++ rest) = (value, rest) := by
  rw [getLengthPrefixedSlice, getVarint32Ptr_putLengthPrefixedSlice h]
  simp only [take_left, drop_left]

variable {mem added : List (Entry Bytes Bytes)} {e : Entry Bytes Bytes} {u : Bytes} {s : ℕ}

theorem keyComparator_put {a b : InternalKey Bytes} (ha : a.user_key.length + 8 < 2 ^ 32)
    (hb : b.user_key.length + 8 < 2 ^ 32) (has : a.sequence ≤ kMaxSequenceNumber)
    (hbs : b.sequence ≤ kMaxSequenceNumber) (rest rest' : Bytes) :
    keyComparator (putLengthPrefixedSlice a.encode ++ rest)
      (putLengthPrefixedSlice b.encode ++ rest') ≠ .lt ↔ b ≤ a := by
  rw [keyComparator, getLengthPrefixedSlice_put (by rwa [InternalKey.length_encode]),
    getLengthPrefixedSlice_put (by rwa [InternalKey.length_encode]),
    InternalKey.compare_encode has hbs, ne_eq, cmp_eq_lt_iff, not_lt]

/-- **`Add` inserts the entry in its place.** -/
theorem add_entry (hmem : ∀ a ∈ mem, Short a) (he : Short e) :
    add (mem.map entryBytes) e.1.sequence e.1.type e.1.user_key e.2 =
      (memTableAdd mem e).map entryBytes := by
  have hbuf : encodeVarint32 ((e.1.user_key.length + 8) % 2 ^ 32) ++ e.1.encode ++
      (encodeVarint32 (e.2.length % 2 ^ 32) ++ e.2) = entryBytes e := by
    rw [entryBytes, putLengthPrefixedSlice_encode, putLengthPrefixedSlice]
  have horder : ∀ {a b}, Short a → Short b →
      (a.1 ≤ b.1 ↔ keyComparator (entryBytes b) (entryBytes a) ≠ .lt) := fun ha hb =>
    (keyComparator_put hb.key ha.key hb.sequence ha.sequence _ _).symm
  rw [add, hbuf, memTableAdd]
  exact (map_orderedInsert _ _ entryBytes mem e (fun a ha => horder (hmem a ha) he)
    fun a ha => horder he (hmem a ha)).symm

/-- **`Get` answers as a lookup in the sorted entries.** -/
theorem get_entries (hmem : ∀ a ∈ mem, Short a) (hu : u.length + 8 < 2 ^ 32)
    (hs : s ≤ kMaxSequenceNumber) :
    get (mem.map entryBytes) u s = (tableLookup mem u s).map fun e => answer (some e) := by
  have hkey : memtableKey u s = putLengthPrefixedSlice (lookupKey u s).encode ++ [] := by
    rw [putLengthPrefixedSlice_encode, append_nil]
    rfl
  have hseek : (mem.map entryBytes).find? (fun entry =>
      keyComparator entry (memtableKey u s) ≠ .lt) =
      (mem.find? fun e => decide (lookupKey u s ≤ e.1)).map entryBytes := by
    rw [find?_map]
    refine congrArg (Option.map entryBytes) (find?_congr fun a ha => ?_)
    rw [Function.comp_apply, hkey]
    exact decide_eq_decide.2
      (keyComparator_put (hmem a ha).key hu (hmem a ha).sequence hs _ _)
  rw [get, hseek, tableLookup]
  cases hfind : mem.find? fun e => decide (lookupKey u s ≤ e.1) with
  | none => rfl
  | some e =>
    have he := hmem e (mem_of_find?_eq_some hfind)
    have hlength := InternalKey.length_encode e.1
    have hptr : getVarint32Ptr (entryBytes e) =
        some (e.1.user_key.length + 8, e.1.encode ++ putLengthPrefixedSlice e.2) := by
      rw [← hlength]
      exact getVarint32Ptr_putLengthPrefixedSlice (by rw [hlength]; exact he.key) _
    have htag : decodeFixed64 ((e.1.encode ++ putLengthPrefixedSlice e.2).drop
        e.1.user_key.length) = e.1.num := by
      rw [InternalKey.encode, append_assoc, drop_left]
      exact decodeFixed_encodeFixed (InternalKey.num_lt he.sequence) _
    have huser : (e.1.encode ++ putLengthPrefixedSlice e.2).take e.1.user_key.length =
        e.1.user_key := by
      rw [InternalKey.encode, append_assoc, take_left]
    have hvalue : getLengthPrefixedSlice ((e.1.encode ++ putLengthPrefixedSlice e.2).drop
        (e.1.user_key.length + 8)) = (e.2, []) := by
      rw [drop_left' hlength]
      simpa using getLengthPrefixedSlice_put he.value []
    simp only [Option.map_some, hptr, Nat.add_sub_cancel, huser, htag, hvalue,
      Slice.compare_eq_eq_iff, Option.filter_some, decide_eq_true_eq]
    split_ifs with hu
    · obtain ⟨⟨user_key, sequence, type⟩, value⟩ := e
      cases type with
      | deletion => simp [InternalKey.num, packSequenceAndType, ValueType.toNat, answer]
      | value => simp [InternalKey.num, packSequenceAndType, ValueType.toNat, answer]
    · rfl

/-- `Add`, for an entry. -/
def addEntry (table : List Bytes) (e : Entry Bytes Bytes) : List Bytes :=
  add table e.1.sequence e.1.type e.1.user_key e.2

theorem mem_added : e ∈ added.foldl memTableAdd [] ↔ e ∈ added := by
  rw [mem_foldl_memTableAdd, or_iff_left not_mem_nil]

theorem foldl_addEntry (hadded : ∀ e ∈ added, Short e)
    (hdistinct : added.Pairwise fun a b => a.1 ≠ b.1) :
    added.foldl addEntry [] = (added.foldl memTableAdd []).map entryBytes ∧
      (added.foldl memTableAdd []).Pairwise fun a b => a.1 < b.1 := by
  induction added using reverseRecOn with
  | nil => exact ⟨rfl, Pairwise.nil⟩
  | append_singleton added e ih =>
    obtain ⟨hadded, he⟩ := forall_mem_append.1 hadded
    obtain ⟨hdistinct, -, hne⟩ := pairwise_append.1 hdistinct
    obtain ⟨hbytes, hsorted⟩ := ih hadded hdistinct
    rw [foldl_concat, foldl_concat, hbytes]
    exact ⟨add_entry (fun a ha => hadded a (mem_added.1 ha)) (he e (mem_singleton_self e)),
      memTableAdd_sorted hsorted fun a ha => hne a (mem_added.1 ha) e (mem_singleton_self e)⟩

/-- **A lookup finds the newest visible entry** of all that have been added, whatever the order. -/
theorem get_finds (hadded : ∀ e ∈ added, Short e) (hdistinct : added.Pairwise fun a b => a.1 ≠ b.1)
    (hu : u.length + 8 < 2 ^ 32) (hs : s ≤ kMaxSequenceNumber) :
    ∃ found, Finds {e | e ∈ added} u s found ∧
      get (added.foldl addEntry []) u s = found.map fun e => answer (some e) := by
  obtain ⟨hbytes, hsorted⟩ := foldl_addEntry hadded hdistinct
  refine ⟨_, ?_, hbytes ▸ get_entries (fun e he => hadded e (mem_added.1 he)) hu hs⟩
  simpa only [mem_added] using tableLookup_finds (u := u) (s := s) hsorted

theorem get_finds_older :
    let added : List (Entry Bytes Bytes) :=
      [(⟨[97], 1, .value⟩, [1]), (⟨[97], 2, .deletion⟩, [])]
    ∃ found, Finds {e | e ∈ added} [97] 1 found ∧
      found.map (fun e => answer (some e)) = some (some [1]) := by
  intro added
  have hshort : ∀ e ∈ added, Short e := by
    simp only [added, forall_mem_cons]
    exact ⟨⟨by decide, by decide, by decide⟩, ⟨by decide, by decide, by decide⟩, nofun⟩
  obtain ⟨found, hfinds, hget⟩ := get_finds (u := [97]) (s := 1) hshort (by decide) (by decide)
    (by decide)
  exact ⟨found, hfinds, hget.symm.trans (by decide +kernel)⟩

end MemTable

end Bourbon
