import Bourbon.Lib.ListIterator
import Bourbon.Table.BlockSeek

/-!
# The iterator of a block

`Block::NewIterator` gives a `Block::Iter`, an empty iterator or an iterator that only reports an
error.  Backwards, `Block::Iter` goes to an earlier restart point and reads on from there, up to
the entry that ends where the current one begins.

* `Block.iterator` : the iterator interface of a block;
* `Ready.parseUntil` : reading on up to an entry;
* `Block.iterator_follows` : the iterator over a finished block moves over its entries;
* `Block.built_eq_cursor` : so it is a cursor over the entries that were added.
-/

namespace Bourbon

open Option

open SortedIterator

namespace Block

/-- The iterators that `Block::NewIterator` returns, as iterators.  Error iterators and empty
iterators are never valid. -/
def iterator (compare : Bytes → Bytes → Ordering) :
    SortedIterator (Except Status (Option Iter)) (Bytes × Bytes) Bytes where
  entry
    | .ok (some it) => if it.valid then some (it.key, it.value) else none
    | _ => none
  seekToFirst
    | .ok (some it) => some (.ok (some it.seekToFirst))
    | x => some x
  seekToLast
    | .ok (some it) => it.seekToLast.map fun it => .ok (some it)
    | x => some x
  seek target
    | .ok (some it) => some (.ok (some (it.seek compare target)))
    | x => some x
  next
    | .ok (some it) => it.next.map fun it => .ok (some it)
    | _ => none
  prev
    | .ok (some it) => it.prev.map fun it => .ok (some it)
    | _ => none

/-- The status of such an iterator. -/
def iteratorStatus : Except Status (Option Iter) → Status
  | .ok (some it) => it.status
  | .ok none => .ok
  | .error s => s

variable {R : ℕ} {es : List (Bytes × Bytes)} {i : ℕ}

namespace Iter

variable {it : Iter}

/-- **Reading on** from before entry `i` up to the entry that ends where entry `m` begins. -/
theorem Ready.parseUntil {m : ℕ} (fuel : ℕ) (h : it.Ready R es i) (him : i < m)
    (hm : m ≤ es.length) (hfuel : m - i ≤ fuel) :
    ∃ it', parseUntil (Pieces.offset encodeEntry es m) fuel it = some it' ∧ it'.At R es (m - 1) ∧
      it'.status = it.status := by
  induction fuel generalizing i it with
  | zero => omega
  | succ fuel ih =>
    have hlt : i < es.length := him.trans_le hm
    obtain ⟨it', hit', hat, hst⟩ := h.parseNextKey
    have hready := hat.ready hlt
    have hnext : it'.nextEntryOffset = Pieces.offset encodeEntry es (i + 1) := by
      have hlen := length_blockBytes R es
      have hfits := h.reads.fits
      have hle := Pieces.offset_le (f := encodeEntry) es (i + 1)
      rw [nextEntryOffset, hready.before, Nat.mod_eq_of_lt (by omega)]
    rw [Iter.parseUntil, hit']
    simp only [hlt, decide_true, Bool.true_and, hnext, decide_eq_true_eq]
    rcases (Nat.succ_le_of_lt him).eq_or_lt with rfl | hmore
    · rw [if_neg (lt_irrefl _)]
      exact ⟨it', rfl, hat, hst⟩
    · have hoff : Pieces.offset encodeEntry es (i + 1) < Pieces.offset encodeEntry es m :=
        Pieces.offset_lt (fun e _ => Nat.lt_of_lt_of_le (by decide) (three_le_length_encodeEntry e))
          (hmore.trans_le hm) hmore
      rw [if_pos hoff]
      obtain ⟨it'', hit'', hat'', hst''⟩ := ih hready hmore (by omega)
      exact ⟨it'', hit'', hat'', hst''.trans hst⟩

theorem At.seekToFirst (h : it.At R es i) (hR : 0 < R) :
    it.seekToFirst.At R es 0 ∧ it.seekToFirst.status = it.status := by
  have hready := h.reads.ready hR (Nat.succ_pos _)
  rw [Nat.zero_mul] at hready
  obtain ⟨it', hit', hat, hst⟩ := hready.parseNextKey
  rw [Iter.seekToFirst, hit']
  exact ⟨hat, hst⟩

theorem At.seekToLast (h : it.At R es i) (hR : 0 < R) :
    ∃ it', it.seekToLast = some it' ∧ it'.At R es (es.length - 1) ∧ it'.status = it.status := by
  have hlast : restartCount R es.length - 1 < restartCount R es.length :=
    Nat.sub_lt (Nat.succ_pos _) Nat.one_pos
  have hready := h.reads.ready hR hlast
  rw [Iter.seekToLast, h.reads.num_restarts]
  rcases hready.le.eq_or_lt with heq | hlt
  · -- only the block without entries has its last restart point at its end
    have hzero : es.length = 0 := by
      rcases Nat.eq_zero_or_pos (restartCount R es.length - 1) with h0 | h0
      · rw [h0, Nat.zero_mul] at heq
        exact heq.symm
      · exact absurd heq (index_lt_length hR h0 hlast).ne
    obtain ⟨it', hit', hat, hst⟩ := hready.parseNextKey
    rw [Iter.parseUntil, hit', heq]
    simp only [lt_irrefl, decide_false, Bool.false_and, Bool.false_eq_true, if_false]
    rw [heq, hzero] at hat
    rw [hzero]
    exact ⟨it', rfl, hat, hst⟩
  · have hsize := length_le_entries es
    have hrestarts : it.restarts = Pieces.offset encodeEntry es es.length := by
      rw [h.reads.restarts, Pieces.offset_length]
    have := hready.parseUntil (it.restarts + 1) hlt le_rfl (by rw [h.reads.restarts]; omega)
    rwa [← hrestarts] at this

theorem restartBack_spec (h : it.At R es i) {j : ℕ}
    (hj : j < restartCount R es.length) :
    match it.restartBack j with
    | none => i = 0
    | some k => k < restartCount R es.length ∧ k * R < i := by
  have hlt_of : ∀ k, k < restartCount R es.length → it.getRestartPoint k < it.current →
      k * R < i := by
    intro k hk hlt
    rw [getRestartPoint_eq h.reads hk, h.current] at hlt
    exact not_le.1 fun hle => absurd hlt (not_lt.2 (Pieces.offset_mono es hle))
  induction j with
  | zero =>
    rw [restartBack]
    split_ifs with hge
    · -- the first restart point is the beginning of the block
      rw [getRestartPoint_eq h.reads hj, Nat.zero_mul, Pieces.offset_zero, h.current] at hge
      by_contra hne
      rcases Nat.eq_zero_or_pos es.length with hzero | hpos
      · have := h.le
        omega
      · have := Pieces.offset_lt (f := encodeEntry) (l := es) (i := 0) (j := i)
          (fun e _ => Nat.lt_of_lt_of_le (by decide) (three_le_length_encodeEntry e)) hpos
          (Nat.pos_of_ne_zero hne)
        omega
    · exact ⟨hj, hlt_of 0 hj (not_le.1 hge)⟩
  | succ j ih =>
    rw [restartBack]
    split_ifs with hge
    · exact ih (Nat.lt_of_succ_lt hj)
    · exact ⟨hj, hlt_of (j + 1) hj (not_le.1 hge)⟩

theorem At.prev (h : it.At R es i) (hR : 0 < R) (hi : i < es.length) :
    ∃ it', it.prev = some it' ∧ it'.At R es (if i = 0 then es.length else i - 1) ∧
      it'.status = it.status := by
  obtain ⟨-, -, -, hindex⟩ := h.entry _ (List.getElem?_eq_getElem hi)
  have hspec := restartBack_spec h (h.reads.num_restarts ▸ hindex)
  rw [Iter.prev, h.valid_eq, decide_eq_true hi, decide_eq_true hindex, Bool.true_and, if_pos rfl]
  cases hback : it.restartBack it.restart_index with
  | none =>
    rw [hback] at hspec
    rw [if_pos hspec]
    refine ⟨_, rfl, ⟨⟨h.reads.data, h.reads.restarts, h.reads.num_restarts, h.reads.fits⟩,
      le_rfl, ?_, ?_⟩,
      rfl⟩
    · rw [Pieces.offset_length]
      exact h.reads.restarts
    · intro e he
      rw [List.getElem?_length] at he
      cases he
  | some k =>
    rw [hback] at hspec
    obtain ⟨hk, hlt⟩ := hspec
    have hsize := length_le_entries es
    have hready := h.reads.ready hR hk
    have := hready.parseUntil (it.restarts + 1) hlt hi.le (by rw [h.reads.restarts]; omega)
    rw [← h.current] at this
    rw [if_neg (Nat.ne_zero_of_lt hlt)]
    exact this

end Iter

/-- The iterator stands at entry `i` of the block of `es`, without an error. -/
def Stands (R : ℕ) (es : List (Bytes × Bytes)) (i : ℕ) (x : Except Status (Option Iter)) : Prop :=
  ∃ it, x = .ok (some it) ∧ it.At R es i ∧ it.status = .ok

variable {x : Except Status (Option Iter)}

theorem Stands.status (h : Stands R es i x) :
    iteratorStatus x = .ok := by
  obtain ⟨it, rfl, -, hst⟩ := h
  exact hst

theorem stands_newIterator (h : (blockBytes R es).length < 2 ^ 32) :
    Stands R es es.length (Block.new (blockBytes R es)).newIterator := by
  obtain ⟨it, hit, hover, hst⟩ := Iter.newIterator_blockBytes h
  refine ⟨it, hit, ⟨hover, le_rfl, ?_, ?_⟩, hst⟩
  · have hlen := length_blockBytes R es
    have hpos : restartCount R es.length ≠ 0 := Nat.succ_ne_zero _
    rw [newIterator, new_blockBytes h, if_neg (by simp only; omega)] at hit
    simp only [numRestarts_blockBytes h, if_neg hpos] at hit
    cases hit
    exact (Pieces.offset_length encodeEntry es).symm
  · intro e he
    rw [List.getElem?_length] at he
    cases he

variable {compare : Bytes → Bytes → Ordering}

/-- **The iterator over a finished block moves over its entries.** -/
theorem iterator_follows (hR : 0 < R)
    (hcut : ∀ target, Iter.Cut compare es target) :
    (iterator compare).Follows (fun target e => compare e.1 target == .lt) es (Stands R es) where
  le := by
    rintro i x ⟨it, rfl, hat, -⟩
    exact hat.le
  entry := by
    rintro i x ⟨it, rfl, hat, -⟩
    have hfound := hat.found
    simp only [iterator]
    cases he : es[i]? with
    | none =>
      rw [he] at hfound
      rw [if_neg (by rw [show it.valid = false from hfound]; exact Bool.false_ne_true)]
    | some e =>
      rw [he] at hfound
      obtain ⟨hvalid, hkey, hval⟩ : it.valid = true ∧ it.key = e.1 ∧ it.value = e.2 := hfound
      rw [if_pos hvalid, hkey, hval]
  seekToFirst := by
    rintro i x ⟨it, rfl, hat, hst⟩
    obtain ⟨hat', hst'⟩ := hat.seekToFirst hR
    exact ⟨_, rfl, _, rfl, hat', hst'.trans hst⟩
  seekToLast := by
    rintro i x ⟨it, rfl, hat, hst⟩
    obtain ⟨it', hit', hat', hst'⟩ := hat.seekToLast hR
    exact ⟨.ok (some it'), by simp only [iterator, hit', map_some], it', rfl, hat',
      hst'.trans hst⟩
  seek := by
    rintro i x target ⟨it, rfl, hat, hst⟩
    obtain ⟨hat', hst'⟩ := Iter.seek_at hat.reads hR (hcut target)
    exact ⟨_, rfl, _, rfl, hat', hst'.trans hst⟩
  next := by
    rintro i x ⟨it, rfl, hat, hst⟩ hi
    obtain ⟨it', hit', hat', hst'⟩ := (hat.ready hi).parseNextKey
    have hnext : it.next = some it' := by
      rw [Iter.next, hat.valid_eq, decide_eq_true hi, if_pos rfl, hit']
    exact ⟨.ok (some it'), by simp only [iterator, hnext, map_some], it', rfl, hat',
      hst'.trans hst⟩
  prev := by
    rintro i x ⟨it, rfl, hat, hst⟩ hi
    obtain ⟨it', hit', hat', hst'⟩ := hat.prev hR hi
    exact ⟨.ok (some it'), by simp only [iterator, hit', map_some], it', rfl, hat',
      hst'.trans hst⟩

theorem cut_of_sorted
    (htrans : ∀ a b c, compare a b = .lt → compare b c = .lt → compare a c = .lt)
    (hsorted : es.Pairwise fun a b => compare a.1 b.1 = .lt) (target : Bytes) :
    Iter.Cut compare es target :=
  hsorted.imp fun {a b} hab hb => htrans a.1 b.1 target hab hb

/-- **The iterator over the block that was built is a cursor over the entries.**  The entries are in
strictly increasing order and the block has less than 4 GiB; after every sequence of calls in which
neighbours are asked for only at an entry, the iterator is at the entry of the cursor. -/
theorem built_eq_cursor (compare : Bytes → Bytes → Ordering)
    (htrans : ∀ a b c, compare a b = .lt → compare b c = .lt → compare a c = .lt) (R : ℕ)
    (hR : 1 ≤ R) (es : List (Bytes × Bytes))
    (hsorted : es.Pairwise fun a b => compare a.1 b.1 = .lt)
    (hlen : (BlockBuilder.addAll R es).finish.length < 2 ^ 32)
    (calls : List (SortedIterator.Call Bytes)) (k : ℕ)
    (hcalls : Steps.run (Follows.cursorCall (fun target e => compare e.1 target == .lt) es)
      es.length calls = some k) :
    ∃ x, Steps.run (iterator compare).call
        (Block.new (BlockBuilder.addAll R es).finish).newIterator calls = some x ∧
      (iterator compare).entry x = es[k]? ∧ iteratorStatus x = .ok := by
  have hfollows := iterator_follows hR (cut_of_sorted htrans hsorted)
  rw [(BlockBuilder.represents_addAll hR es).finish] at hlen ⊢
  obtain ⟨x, hrun, hx⟩ := hfollows.run (stands_newIterator hlen) hcalls
  exact ⟨x, hrun, hfollows.entry hx, hx.status⟩

/-- Back over a restart point. -/
theorem built_eq_cursor_back :
    ∃ x, Steps.run (iterator Slice.compare).call (Block.new (BlockBuilder.addAll 2
        [([1], [7]), ([1, 1], []), ([2], [5])]).finish).newIterator [.seek [1, 2], .prev] = some x ∧
      (iterator Slice.compare).entry x = some ([1, 1], []) ∧ iteratorStatus x = .ok :=
  built_eq_cursor Slice.compare Slice.compare_trans 2 (by decide) _ (by decide) (by decide +kernel)
    [.seek [1, 2], .prev] 1 (by decide +kernel)

/-! ### Long values -/

theorem parseNextKey_value_lt {it : Iter} (h : it.value_length < 2 ^ 32) :
    it.parseNextKey.1.value_length < 2 ^ 32 := by
  rw [Iter.parseNextKey]
  simp only
  split
  · exact h
  · split
    · exact (by decide : 0 < 2 ^ 32)
    · rename_i heq
      split
      · exact (by decide : 0 < 2 ^ 32)
      · exact (decodeEntry_spec heq).2.1

theorem value_lt_of_seekToFirst
    {x' : Except Status (Option Iter)} {key value : Bytes}
    (h : (iterator compare).seekToFirst x = some x')
    (hentry : (iterator compare).entry x' = some (key, value)) : value.length < 2 ^ 32 := by
  match x with
  | .ok (some it) =>
    obtain rfl := some.inj h
    have hlt : it.seekToFirst.value_length < 2 ^ 32 :=
      parseNextKey_value_lt (by decide : 0 < 2 ^ 32)
    obtain ⟨-, hvalue⟩ := ite_none_right_eq_some.1 hentry
    obtain ⟨-, rfl⟩ := Prod.mk.inj (some.inj hvalue)
    rw [Iter.value, List.length_take]
    exact (min_le_left _ _).trans_lt hlt
  | .ok none =>
    cases h
    cases hentry
  | .error s =>
    cases h
    cases hentry

/-- **A value of 4 GiB is not read back.** -/
theorem first_value_too_long :
    [(([] : Bytes), List.replicate (2 ^ 32) (0 : UInt8))].Pairwise
        (fun a b => Slice.compare a.1 b.1 = .lt) ∧
      ¬ ∃ x, (iterator Slice.compare).seekToFirst (Block.new
          (BlockBuilder.addAll 16 [([], List.replicate (2 ^ 32) 0)]).finish).newIterator = some x ∧
        (iterator Slice.compare).entry x = some ([], List.replicate (2 ^ 32) 0) := by
  refine ⟨List.pairwise_singleton _ _, ?_⟩
  rintro ⟨x, hx, hentry⟩
  have hlt := value_lt_of_seekToFirst hx hentry
  rw [List.length_replicate] at hlt
  exact lt_irrefl _ hlt

end Block

end Bourbon
