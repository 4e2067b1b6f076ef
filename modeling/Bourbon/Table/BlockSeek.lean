import Mathlib.Data.List.Induction
import Bourbon.Table.Block

/-!
# Blocks read back

What `BlockBuilder` writes, `Block::Iter` reads.  `BlockBuilder.Represents` describes a builder
after any list of entries; `Block.Iter.Over` an iterator over the finished block.  Entry `i` starts
at `Pieces.offset encodeEntry es i`, and every `block_restart_interval`-th entry is a restart
point.

* `represents_addAll` : adding entries one by one;
* `Block.Iter.parseNextKey_on` : one step of the iterator;
* `Block.Iter.seek_spec` : seeking stops at the first entry that is not before the target.
-/

namespace Bourbon

open List

/-- Number of restart points of a block with `n` entries. -/
def restartCount (R n : ℕ) : ℕ := (n - 1) / R + 1

/-- The restart array: the offsets of every `R`-th entry. -/
def restartOffsets (R : ℕ) (es : List (Bytes × Bytes)) : List ℕ :=
  (List.range (restartCount R es.length)).map fun j =>
    Pieces.offset encodeEntry es (j * R) % 2 ^ 32

namespace BlockBuilder

/-- The builder holds the entries `es`. -/
structure Represents (R : ℕ) (b : BlockBuilder) (es : List (Bytes × Bytes)) : Prop where
  buffer : b.buffer = es.flatMap encodeEntry
  restarts : b.restarts = restartOffsets R es
  counter : b.counter = if es = [] then 0 else (es.length - 1) % R + 1

variable {R : ℕ} {b : BlockBuilder} {es : List (Bytes × Bytes)}

theorem represents_new : Represents R new [] := by
  refine ⟨rfl, ?_, rfl⟩
  simp [new, restartOffsets, restartCount]

theorem succ_div_mod {R : ℕ} (hR : 0 < R) (m : ℕ) :
    (m % R + 1 < R ∧ (m + 1) / R = m / R ∧ (m + 1) % R = m % R + 1) ∨
      (m % R + 1 = R ∧ (m + 1) / R = m / R + 1 ∧ (m + 1) % R = 0) := by
  have hm := Nat.div_add_mod m R
  have hlt := Nat.mod_lt m hR
  have hsplit : m + 1 = m % R + 1 + R * (m / R) := by omega
  rcases Nat.lt_or_ge (m % R + 1) R with h | h
  · refine Or.inl ⟨h, ?_, ?_⟩
    · rw [hsplit, Nat.add_mul_div_left _ _ hR, Nat.div_eq_of_lt h, Nat.zero_add]
    · conv_lhs => rw [hsplit, Nat.add_mul_mod_self_left, Nat.mod_eq_of_lt h]
  · have heq : m % R + 1 = R := by omega
    refine Or.inr ⟨heq, ?_, ?_⟩
    · rw [hsplit, heq, Nat.add_mul_div_left _ _ hR, Nat.div_self hR, Nat.add_comm]
    · conv_lhs => rw [hsplit, heq, Nat.add_mul_mod_self_left, Nat.mod_self]

theorem restartOffsets_append (es : List (Bytes × Bytes)) (e : Bytes × Bytes) :
    restartOffsets R (es ++ [e]) = (List.range (es.length / R + 1)).map fun j =>
      Pieces.offset encodeEntry es (j * R) % 2 ^ 32 := by
  have hcount : restartCount R (es ++ [e]).length = es.length / R + 1 := by
    rw [restartCount, length_append, length_singleton, Nat.add_sub_cancel]
  rw [restartOffsets, hcount]
  refine map_congr_left fun j hj => ?_
  have hj : j ≤ es.length / R := Nat.lt_succ_iff.1 (mem_range.1 hj)
  rw [Pieces.offset_append _ _ ((Nat.mul_le_mul_right R hj).trans (Nat.div_mul_le_self _ _))]

/-- **Adding an entry.** -/
theorem represents_add (h : b.Represents R es) (hR : 0 < R) (e : Bytes × Bytes) :
    (b.add R e.1 e.2).Represents R (es ++ [e]) := by
  have hbuf : (b.add R e.1 e.2).buffer = (es ++ [e]).flatMap encodeEntry := by
    rw [flatMap_append, flatMap_singleton, ← h.buffer]
    rfl
  have hlen : (es ++ [e]).length - 1 = es.length := by
    rw [length_append, length_singleton, Nat.add_sub_cancel]
  refine ⟨hbuf, ?_, ?_⟩
  · rw [restartOffsets_append]
    simp only [add]
    split_ifs with hc
    · -- no new restart point
      have hdiv : (es.length - 1) / R = es.length / R := by
        cases es with
        | nil => rfl
        | cons a es =>
          have hcount := h.counter
          rw [if_neg (cons_ne_nil a es), length_cons, Nat.add_sub_cancel] at hcount
          rw [length_cons, Nat.add_sub_cancel]
          rcases succ_div_mod hR es.length with ⟨-, hd, -⟩ | ⟨hm, -, -⟩
          · exact hd.symm
          · omega
      change b.restarts = _
      rw [h.restarts, restartOffsets, restartCount, hdiv]
    · -- the new entry is a restart point
      have hne : es ≠ [] := by
        rintro rfl
        exact hc (by rw [h.counter]; exact hR)
      obtain ⟨m, hm⟩ : ∃ m, es.length = m + 1 :=
        ⟨es.length - 1, by have := length_pos_iff.2 hne; omega⟩
      have hcount := h.counter
      rw [if_neg hne, hm, Nat.add_sub_cancel] at hcount
      rcases succ_div_mod hR m with ⟨hlt, -, -⟩ | ⟨-, hd, hmod⟩
      · omega
      · have hdiv : es.length / R = restartCount R es.length := by
          rw [restartCount, hm, Nat.add_sub_cancel, hd]
        have hmul : restartCount R es.length * R = es.length := by
          rw [← hdiv]
          have := Nat.div_add_mod es.length R
          rw [hm, hmod, ← hm, Nat.add_zero, Nat.mul_comm] at this
          exact this
        rw [hdiv, range_succ, map_append, map_singleton, hmul, h.restarts,
          Pieces.offset_length, h.buffer]
        rfl
  · rw [if_neg (by simp), hlen]
    have hcount := h.counter
    simp only [add]
    cases es with
    | nil =>
      rw [if_pos rfl] at hcount
      rw [hcount, if_pos hR, length_nil, Nat.zero_mod]
    | cons a es =>
      rw [if_neg (cons_ne_nil a es), length_cons, Nat.add_sub_cancel] at hcount
      rw [length_cons]
      rcases succ_div_mod hR es.length with ⟨hlt, -, hm⟩ | ⟨heq, -, hm⟩
      · rw [if_pos (by omega), hm, hcount]
      · rw [if_neg (by omega), hm]

/-- A builder after a list of entries. -/
def addAll (R : ℕ) (es : List (Bytes × Bytes)) : BlockBuilder :=
  es.foldl (fun b e => b.add R e.1 e.2) new

theorem represents_addAll (hR : 0 < R) (es : List (Bytes × Bytes)) :
    (addAll R es).Represents R es := by
  induction es using List.reverseRecOn with
  | nil => exact represents_new
  | append_singleton es e ih =>
    rw [addAll, foldl_append]
    exact represents_add ih hR e

end BlockBuilder

/-- The bytes of a finished block. -/
def blockBytes (R : ℕ) (es : List (Bytes × Bytes)) : Bytes :=
  es.flatMap encodeEntry ++ ((restartOffsets R es).flatMap encodeFixed32 ++
    encodeFixed32 (restartCount R es.length))

variable {R : ℕ} {es : List (Bytes × Bytes)}

theorem length_restartOffsets : (restartOffsets R es).length = restartCount R es.length := by
  rw [restartOffsets, length_map, length_range]

theorem BlockBuilder.Represents.finish {b : BlockBuilder} (h : b.Represents R es) :
    b.finish = blockBytes R es := by
  rw [BlockBuilder.finish, h.buffer, h.restarts, length_restartOffsets, blockBytes,
    append_assoc]

theorem length_restarts : ((restartOffsets R es).flatMap encodeFixed32).length =
    restartCount R es.length * 4 := by
  have h : ∀ a ∈ restartOffsets R es, (encodeFixed32 a).length = 4 :=
    fun a _ => length_encodeFixed 4 a
  rw [Pieces.length_uniform h, length_restartOffsets]

theorem length_blockBytes (R : ℕ) (es : List (Bytes × Bytes)) : (blockBytes R es).length =
    (es.flatMap encodeEntry).length + restartCount R es.length * 4 + 4 := by
  rw [blockBytes, length_append, length_append, length_restarts, encodeFixed32,
    length_encodeFixed, Nat.add_assoc]

theorem BlockBuilder.Represents.currentSizeEstimate {b : BlockBuilder} (h : b.Represents R es) :
    b.currentSizeEstimate = (blockBytes R es).length := by
  rw [BlockBuilder.currentSizeEstimate, h.buffer, h.restarts, length_restartOffsets,
    length_blockBytes]

theorem length_le_entries (es : List (Bytes × Bytes)) :
    es.length * 3 ≤ (es.flatMap encodeEntry).length := by
  induction es with
  | nil => exact le_rfl
  | cons a es ih =>
    have := three_le_length_encodeEntry a
    rw [flatMap_cons, length_append, length_cons]
    omega

theorem decodeFixed32_encodeFixed32 {v : ℕ} (h : v < 2 ^ 32) (rest : Bytes) :
    decodeFixed32 (encodeFixed32 v ++ rest) = v :=
  decodeFixed_encodeFixed (n := 4) (h.trans_le (by decide)) rest

namespace Block

theorem numRestarts_blockBytes (h : (blockBytes R es).length < 2 ^ 32) :
    numRestarts (blockBytes R es) = restartCount R es.length := by
  have hlen := length_blockBytes R es
  have hdrop : (blockBytes R es).drop ((blockBytes R es).length - 4) =
      encodeFixed32 (restartCount R es.length) ++ [] := by
    rw [append_nil, blockBytes, ← append_assoc, drop_left']
    have h4 : (encodeFixed32 (restartCount R es.length)).length = 4 := length_encodeFixed 4 _
    simp only [length_append, h4, Nat.add_sub_cancel]
  rw [numRestarts, hdrop, decodeFixed32_encodeFixed32 (by omega)]

/-- **A finished block is accepted**, with its restart array right behind the entries. -/
theorem new_blockBytes (h : (blockBytes R es).length < 2 ^ 32) :
    Block.new (blockBytes R es) =
      ⟨blockBytes R es, (blockBytes R es).length, (es.flatMap encodeEntry).length⟩ := by
  have hlen := length_blockBytes R es
  rw [Block.new, if_neg (by omega), numRestarts_blockBytes h]
  simp only
  rw [if_neg (by omega)]
  congr 1
  rw [Nat.mod_eq_of_lt (by omega)]
  omega

namespace Iter

/-- The iterator runs over the block of the entries `es`. -/
structure Over (R : ℕ) (es : List (Bytes × Bytes)) (it : Iter) : Prop where
  data : it.data = blockBytes R es
  restarts : it.restarts = (es.flatMap encodeEntry).length
  num_restarts : it.num_restarts = restartCount R es.length
  fits : (blockBytes R es).length < 2 ^ 32

/-- The iterator stands before entry `i`. -/
def Before (es : List (Bytes × Bytes)) (i : ℕ) (it : Iter) : Prop :=
  it.value_offset + it.value_length = Pieces.offset encodeEntry es i

variable {it : Iter} {i : ℕ} {e : Bytes × Bytes}

theorem take_restarts (h : it.Over R es) : it.data.take it.restarts = es.flatMap encodeEntry := by
  rw [h.data, h.restarts, blockBytes, take_left]

theorem getRestartPoint_eq (h : it.Over R es) {j : ℕ} (hj : j < restartCount R es.length) :
    it.getRestartPoint j = Pieces.offset encodeEntry es (j * R) := by
  have hlen := length_blockBytes R es
  have hfits := h.fits
  have hle := Pieces.offset_le (f := encodeEntry) es (j * R)
  have hget : (restartOffsets R es)[j]? =
      some (Pieces.offset encodeEntry es (j * R) % 2 ^ 32) := by
    rw [restartOffsets, List.getElem?_map, List.getElem?_range hj, Option.map_some]
  have hoff : Pieces.offset encodeFixed32 (restartOffsets R es) j = j * 4 :=
    Pieces.offset_uniform (fun a _ => length_encodeFixed 4 a)
      (by rw [length_restartOffsets]; exact hj.le)
  have hdrop : ((restartOffsets R es).flatMap encodeFixed32 ++
      encodeFixed32 (restartCount R es.length)).drop (j * 4) =
      encodeFixed32 (Pieces.offset encodeEntry es (j * R) % 2 ^ 32) ++
        (((restartOffsets R es).drop (j + 1)).flatMap encodeFixed32 ++
          encodeFixed32 (restartCount R es.length)) := by
    rw [drop_append_of_le_length (by rw [length_restarts]; omega), ← hoff,
      Pieces.drop_offset_getElem hget, append_assoc]
  rw [getRestartPoint, h.data, h.restarts, ← drop_drop, blockBytes, drop_left, hdrop,
    decodeFixed32_encodeFixed32 (Nat.mod_lt _ (by decide)), Nat.mod_eq_of_lt (by omega)]

theorem newIterator_blockBytes (h : (blockBytes R es).length < 2 ^ 32) :
    ∃ it, (Block.new (blockBytes R es)).newIterator = .ok (some it) ∧ it.Over R es ∧
      it.status = .ok := by
  have hlen := length_blockBytes R es
  have hpos : restartCount R es.length ≠ 0 := Nat.succ_ne_zero _
  rw [newIterator, new_blockBytes h, if_neg (by simp only; omega)]
  simp only [numRestarts_blockBytes h, if_neg hpos]
  exact ⟨_, rfl, ⟨rfl, rfl, rfl, h⟩, rfl⟩

/-- **One step of the iterator**: from before an entry to the entry. -/
theorem parseNextKey_on (h : it.Over R es) (hi : it.Before es i) (he : es[i]? = some e) :
    ∃ it', it.parseNextKey = (it', true) ∧ it'.Over R es ∧ it'.Before es (i + 1) ∧
      it'.valid = true ∧ it'.key = e.1 ∧ it'.value = e.2 ∧ it'.status = it.status := by
  have hlen := length_blockBytes R es
  have hfits := h.fits
  have hsucc := Pieces.offset_succ (f := encodeEntry) he
  have hle := Pieces.offset_le (f := encodeEntry) es (i + 1)
  have h3 := three_le_length_encodeEntry e
  have hcur : it.nextEntryOffset = Pieces.offset encodeEntry es i := by
    rw [nextEntryOffset, hi, Nat.mod_eq_of_lt (by omega)]
  have hdrop := Pieces.drop_offset_getElem (f := encodeEntry) he
  set rest := (es.drop (i + 1)).flatMap encodeEntry with hrest
  have htotal : (es.flatMap encodeEntry).length =
      Pieces.offset encodeEntry es i + ((encodeEntry e).length + rest.length) := by
    have := congrArg List.length hdrop
    rw [length_drop, length_append] at this
    omega
  have hdec := decodeEntry_encodeEntry e rest (by rw [length_append]; omega)
  -- the key starts behind the three lengths
  obtain ⟨k, v⟩ := e
  obtain ⟨header, henc⟩ : ∃ header, encodeEntry (k, v) = header ++ (k ++ v) :=
    ⟨_, append_assoc _ k v⟩
  have hhlen : (encodeEntry (k, v)).length = header.length + (k.length + v.length) := by
    rw [henc, length_append, length_append]
  have hoff : (es.flatMap encodeEntry).length - (k ++ v ++ rest).length + k.length =
      Pieces.offset encodeEntry es i + header.length + k.length := by
    simp only [length_append]
    omega
  rw [parseNextKey]
  simp only [hcur]
  rw [if_neg (by rw [h.restarts]; omega), take_restarts h, hdrop, hdec]
  simp only [Nat.not_lt_zero, if_false]
  refine ⟨_, rfl, ⟨h.data, h.restarts, h.num_restarts, h.fits⟩, ?_, ?_, ?_, ?_, rfl⟩
  · rw [Before]
    simp only
    rw [h.restarts, hoff, hsucc, hhlen]
    omega
  · simp only [valid, h.restarts, decide_eq_true_eq]
    omega
  · simp only [take_zero, nil_append]
    rw [append_assoc, take_left]
  · rw [value]
    simp only
    rw [h.restarts, hoff, h.data, blockBytes, Nat.add_assoc, ← drop_drop,
      drop_append_of_le_length (by omega), hdrop, henc]
    have : (header ++ (k ++ v) ++ rest ++ ((restartOffsets R es).flatMap encodeFixed32 ++
        encodeFixed32 (restartCount R es.length))) = (header ++ k) ++ (v ++ (rest ++
        ((restartOffsets R es).flatMap encodeFixed32 ++
        encodeFixed32 (restartCount R es.length)))) := by
      simp only [append_assoc]
    rw [this, drop_left' (by rw [length_append]), take_left]

theorem parseNextKey_end (h : it.Over R es) (hi : it.Before es es.length) :
    ∃ it', it.parseNextKey = (it', false) ∧ it'.valid = false ∧ it'.status = it.status ∧
      it'.Over R es ∧ it'.current = it'.restarts := by
  have hlen := length_blockBytes R es
  have hfits := h.fits
  have hcur : it.nextEntryOffset = it.restarts := by
    rw [nextEntryOffset, hi, Pieces.offset_length, h.restarts, Nat.mod_eq_of_lt (by omega)]
  rw [parseNextKey]
  simp only [hcur, ge_iff_le, le_refl, if_true]
  exact ⟨_, rfl, by simp [valid], rfl, ⟨h.data, h.restarts, h.num_restarts, h.fits⟩, rfl⟩

theorem advanceRestart_lt (it : Iter) (fuel : ℕ) {index : ℕ} (h : index < it.num_restarts) :
    it.advanceRestart fuel index < it.num_restarts := by
  induction fuel generalizing index with
  | zero => exact h
  | succ fuel ih =>
    rw [advanceRestart]
    split_ifs with hc
    · exact ih hc.1
    · exact h

theorem parseNextKey_frame {it' : Iter} (h : it.parseNextKey = (it', true)) :
    it'.current = it.nextEntryOffset ∧
      (it.restart_index < it.num_restarts → it'.restart_index < it'.num_restarts) := by
  rw [parseNextKey] at h
  simp only at h
  split at h
  · cases h
  · split at h
    · cases h
    · split at h
      · cases h
      · cases h
        exact ⟨rfl, fun hlt => advanceRestart_lt _ _ hlt⟩

/-! ### Positions -/

/-- The iterator is about to read entry `i`, or the end of the block. -/
structure Ready (R : ℕ) (es : List (Bytes × Bytes)) (i : ℕ) (it : Iter) : Prop where
  reads : it.Over R es
  before : it.Before es i
  le : i ≤ es.length
  index : it.restart_index < it.num_restarts

/-- The iterator stands at entry `i`, or behind the last entry. -/
structure At (R : ℕ) (es : List (Bytes × Bytes)) (i : ℕ) (it : Iter) : Prop where
  reads : it.Over R es
  le : i ≤ es.length
  current : it.current = Pieces.offset encodeEntry es i
  entry : ∀ e, es[i]? = some e → it.key = e.1 ∧ it.value = e.2 ∧ it.Before es (i + 1) ∧
    it.restart_index < it.num_restarts

theorem offset_lt_restarts (hi : i < es.length) :
    Pieces.offset encodeEntry es i < (es.flatMap encodeEntry).length := by
  rw [← Pieces.offset_length]
  exact Pieces.offset_lt (fun e _ => Nat.lt_of_lt_of_le (by decide) (three_le_length_encodeEntry e))
    hi hi

theorem At.valid_eq (h : it.At R es i) : it.valid = decide (i < es.length) := by
  rw [valid, h.current, h.reads.restarts]
  rcases h.le.eq_or_lt with rfl | hlt
  · rw [Pieces.offset_length, decide_eq_false (lt_irrefl _), decide_eq_false (lt_irrefl _)]
  · rw [decide_eq_true (offset_lt_restarts hlt), decide_eq_true hlt]

theorem At.ready (h : it.At R es i) (hi : i < es.length) : it.Ready R es (i + 1) := by
  obtain ⟨-, -, hbefore, hindex⟩ := h.entry _ (List.getElem?_eq_getElem hi)
  exact ⟨h.reads, hbefore, hi, hindex⟩

/-- **One step from any position.** -/
theorem Ready.parseNextKey (h : it.Ready R es i) :
    ∃ it', it.parseNextKey = (it', decide (i < es.length)) ∧ it'.At R es i ∧
      it'.status = it.status := by
  rcases h.le.eq_or_lt with rfl | hlt
  · obtain ⟨it', hit', -, hst, hover, hcur⟩ := parseNextKey_end h.reads h.before
    refine ⟨it', by rw [hit']; simp, ⟨hover, le_rfl, ?_, ?_⟩, hst⟩
    · rw [hcur, hover.restarts, Pieces.offset_length]
    · intro e he
      rw [List.getElem?_length] at he
      cases he
  · have he := List.getElem?_eq_getElem hlt
    obtain ⟨it', hit', hover, hbefore, -, hkey, hval, hst⟩ := parseNextKey_on h.reads h.before he
    obtain ⟨hcur, hindex⟩ := parseNextKey_frame hit'
    refine ⟨it', by rw [hit']; simp [hlt], ⟨hover, hlt.le, ?_, ?_⟩, hst⟩
    · have hlen := length_blockBytes R es
      have hfits := h.reads.fits
      have hle := Pieces.offset_le (f := encodeEntry) es i
      rw [hcur, nextEntryOffset, h.before, Nat.mod_eq_of_lt (by omega)]
    · intro e' he'
      rw [he] at he'
      obtain rfl := Option.some.inj he'
      exact ⟨hkey, hval, hbefore, hindex h.index⟩

theorem index_lt_length (hR : 0 < R) {j : ℕ} (h0 : 0 < j) (hj : j < restartCount R es.length) :
    j * R < es.length := by
  have hj : j ≤ (es.length - 1) / R := Nat.le_of_lt_succ hj
  rw [Nat.le_div_iff_mul_le hR] at hj
  have := Nat.mul_pos h0 hR
  omega

theorem Over.ready (h : it.Over R es) (hR : 0 < R) {j : ℕ} (hj : j < restartCount R es.length) :
    (it.seekToRestartPoint j).Ready R es (j * R) where
  reads := ⟨h.data, h.restarts, h.num_restarts, h.fits⟩
  before := getRestartPoint_eq h hj
  le := by
    rcases Nat.eq_zero_or_pos j with rfl | h0
    · rw [Nat.zero_mul]
      exact Nat.zero_le _
    · exact (index_lt_length hR h0 hj).le
  index := h.num_restarts ▸ hj

/-! ### Seeking -/

/-- The iterator stands on the entry `e?`, or is invalid if there is none. -/
def Found (e? : Option (Bytes × Bytes)) (it : Iter) : Prop :=
  match e? with
  | some e => it.valid = true ∧ it.key = e.1 ∧ it.value = e.2
  | none => it.valid = false

theorem At.found (h : it.At R es i) : it.Found es[i]? := by
  have hvalid := h.valid_eq
  cases he : es[i]? with
  | none =>
    have hge := List.getElem?_eq_none_iff.1 he
    rw [Found, hvalid, decide_eq_false (not_lt.2 hge)]
  | some e =>
    obtain ⟨hlt, -⟩ := List.getElem?_eq_some_iff.1 he
    obtain ⟨hkey, hval, -, -⟩ := h.entry e he
    exact ⟨by rw [hvalid, decide_eq_true hlt], hkey, hval⟩

variable {compare : Bytes → Bytes → Ordering} {target : Bytes}

/-- The linear search stops at the first entry from `i` on that is not before the target. -/
theorem Ready.seekLoop (fuel : ℕ) (h : it.Ready R es i) (hfuel : es.length - i < fuel) :
    (seekLoop compare target fuel it).At R es
      (i + (es.drop i).findIdx fun e => compare e.1 target != .lt) ∧
    (Iter.seekLoop compare target fuel it).status = it.status := by
  induction fuel generalizing i it with
  | zero => omega
  | succ fuel ih =>
    obtain ⟨it', hit', hat, hst⟩ := h.parseNextKey
    rw [Iter.seekLoop, hit']
    rcases h.le.eq_or_lt with rfl | hlt
    · rw [drop_length]
      simp only [lt_irrefl, decide_false, Bool.not_false, Bool.true_or, if_true, findIdx_nil,
        Nat.add_zero]
      exact ⟨hat, hst⟩
    · obtain ⟨hkey, -, -, -⟩ := hat.entry _ (List.getElem?_eq_getElem hlt)
      rw [drop_eq_getElem_cons hlt, findIdx_cons]
      simp only [hlt, decide_true, Bool.not_true, Bool.false_or, hkey]
      cases hc : compare es[i].1 target != .lt with
      | true => exact ⟨hat, hst⟩
      | false =>
        simp only [Bool.false_eq_true, if_false, cond_false]
        obtain ⟨hf, hs⟩ := ih (hat.ready hlt) (by omega)
        rw [show i + (((es.drop (i + 1)).findIdx fun e => compare e.1 target != .lt) + 1) =
          i + 1 + (es.drop (i + 1)).findIdx fun e => compare e.1 target != .lt by omega]
        exact ⟨hf, hs.trans hst⟩

/-- The entries before the target form an initial part of the block. -/
def Cut (compare : Bytes → Bytes → Ordering) (es : List (Bytes × Bytes)) (target : Bytes) : Prop :=
  es.Pairwise fun a b => compare b.1 target = .lt → compare a.1 target = .lt

theorem restartBefore_eq (h : it.Over R es) {j : ℕ} (hj : j < restartCount R es.length)
    (he : es[j * R]? = some e) :
    it.restartBefore compare target j = some (compare e.1 target == .lt) := by
  have hlen := length_blockBytes R es
  have hfits := h.fits
  have hdrop := Pieces.drop_offset_getElem (f := encodeEntry) he
  have hle : (encodeEntry e ++ (es.drop (j * R + 1)).flatMap encodeEntry).length < 2 ^ 32 := by
    rw [← hdrop, length_drop]; omega
  rw [restartBefore, getRestartPoint_eq h hj, take_restarts h, hdrop,
    decodeEntry_encodeEntry _ _ hle]
  simp only [ne_eq, not_true_eq_false, if_false]
  rw [append_assoc, take_left]

/-- **Seeking stops at the first entry that is not before the target.** -/
theorem seek_at (h : it.Over R es) (hR : 0 < R) (hcut : Cut compare es target) :
    (it.seek compare target).At R es (es.findIdx fun e => compare e.1 target != .lt) ∧
      (it.seek compare target).status = it.status := by
  -- the keys at the restart points, as a total predicate
  have hindex : ∀ j, 0 < j → j ≤ restartCount R es.length - 1 → j * R < es.length :=
    fun j h0 hj => index_lt_length hR h0 (Nat.lt_of_le_sub_one (Nat.succ_pos _) hj)
  have hsearch : ∀ j, 0 < j → j ≤ restartCount R es.length - 1 →
      it.restartBefore compare target j =
        some (es[j * R]?.any fun e => compare e.1 target == .lt) := by
    intro j h0 hj
    have hget := List.getElem?_eq_getElem (hindex j h0 hj)
    rw [restartBefore_eq h (by rw [restartCount] at hj ⊢; omega) hget, hget, Option.any_some]
  have hmono : Bisect.MonoOn (fun j => es[j * R]?.any fun e => compare e.1 target == .lt) 0
      (restartCount R es.length - 1 + 1) := by
    intro a b _ hab hb hp
    rcases hab.eq_or_lt with rfl | hlt
    · exact hp
    · have hbl := hindex b (by omega) (by omega)
      have hmul : a * R < b * R := Nat.mul_lt_mul_of_pos_right hlt hR
      have hal : a * R < es.length := hmul.trans hbl
      simp only [List.getElem?_eq_getElem hbl, List.getElem?_eq_getElem hal, Option.any_some,
        beq_iff_eq] at hp ⊢
      exact pairwise_iff_getElem.1 hcut _ _ hal hbl hmul hp
  obtain ⟨-, hle, hlast, -⟩ := Bisect.lastTrue_spec (Nat.zero_le _) hmono
  rw [seek, h.num_restarts, Bisect.lastTrue?_eq hsearch]
  simp only
  set left := Bisect.lastTrue (fun j => es[j * R]?.any fun e => compare e.1 target == .lt) 0
    (restartCount R es.length - 1) with hleft
  have hready := h.ready hR (Nat.lt_of_le_sub_one (Nat.succ_pos _) hle)
  -- everything before the chosen restart point is before the target
  have hskip : ∀ e ∈ es.take (left * R), (compare e.1 target != .lt) = false := by
    intro e he
    rcases hlast with h0 | hp
    · rw [h0, Nat.zero_mul, take_zero] at he
      cases he
    · obtain ⟨i, hi, rfl⟩ := mem_take_iff_getElem.1 he
      have hlt : left * R < es.length := by
        by_contra hge
        rw [List.getElem?_eq_none (by omega)] at hp
        exact absurd hp (by simp)
      rw [List.getElem?_eq_getElem hlt, Option.any_some, beq_iff_eq] at hp
      have := pairwise_iff_getElem.1 hcut i (left * R) (by omega) hlt (by omega) hp
      simp [this]
  have hfind : (es.findIdx fun e => compare e.1 target != .lt) =
      left * R + (es.drop (left * R)).findIdx fun e => compare e.1 target != .lt := by
    conv_lhs => rw [← take_append_drop (left * R) es]
    rw [findIdx_append, findIdx_eq_length.2 hskip, length_take,
      min_eq_left hready.le, if_neg (lt_irrefl _), Nat.add_comm]
  rw [hfind]
  refine hready.seekLoop _ ?_
  have hsize := length_le_entries es
  rw [h.restarts]
  omega

/-- **Seeking finds the first entry that is not before the target.** -/
theorem seek_spec (h : it.Over R es) (hR : 0 < R) (hcut : Cut compare es target) :
    (it.seek compare target).Found (es.find? fun e => compare e.1 target != .lt) ∧
      (it.seek compare target).status = it.status := by
  obtain ⟨hat, hst⟩ := seek_at h hR hcut
  have hfound := hat.found
  rw [← List.find?_eq_getElem?_findIdx] at hfound
  exact ⟨hfound, hst⟩

end Iter

end Block

end Bourbon
