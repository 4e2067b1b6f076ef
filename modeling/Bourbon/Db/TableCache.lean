import Bourbon.Table.Uniform

/-!
# The learned read path

`TableCache::LevelRead` looks a key up without seeking: a model predicts an interval of entry
positions, block positions follow by division, the index block is consulted only if the interval
spans two blocks, and the entries of the interval are read in one go and bisected.  `SaveValue` is
the handler both read paths call.

* `readInterval_eq` : which entry the handler receives, for any interval of positions;
* `levelRead_eq_internalGet` : with a model trained on the file and a lookup that sees all of it,
  the learned and the baseline read path leave the same result;
* `levelRead_past_snapshot_iff` : for lookups at older sequence numbers they differ: the bisection
  never moves past the end of the interval, and the entry there is handed over unchecked.
-/

namespace Bourbon

open List Function

open LearnedIndexData Decimal

/-- The state of a `Saver`. -/
inductive SaverState where
  | kNotFound | kFound | kDeleted | kCorrupt
  deriving DecidableEq, Repr

/-- The argument of `SaveValue`. -/
structure Saver where
  state : SaverState
  user_key : Bytes
  value : Bytes
  deriving DecidableEq, Repr

/-- `SaveValue`, the callback of a lookup. -/
def saveValue (s : Saver) (ikey v : Bytes) : Saver :=
  match parseInternalKey ikey with
  | none => { s with state := .kCorrupt }
  | some parsed_key =>
    if Slice.compare parsed_key.user_key s.user_key = .eq then
      match parsed_key.type with
      | .value => { s with state := .kFound, value := v }
      | .deletion => { s with state := .kDeleted }
    else s

/-- Key and value of the entry at a byte offset, without an assertion; `none` is a null pointer. -/
def entryUnchecked (entries : Bytes) (offset : ℕ) : Option (Bytes × Bytes) :=
  match decodeEntry (entries.drop offset) with
  | none => none
  | some (_, non_shared, value_length, key_ptr) =>
    some (key_ptr.take non_shared, (key_ptr.drop non_shared).take value_length)

/-- The entry at a byte offset.  The assertion is that there is one and that it shares nothing. -/
def entryAt (entries : Bytes) (offset : ℕ) : Option (Bytes × Bytes) :=
  match decodeEntry (entries.drop offset) with
  | none => none
  | some (shared, _) => if shared ≠ 0 then none else entryUnchecked entries offset

/-- `read_size`, in unsigned arithmetic. -/
def readSize (g : BlockGeometry) (pos_block_lower pos_block_upper : ℕ) : ℕ :=
  (pos_block_upper + 2 ^ 64 - pos_block_lower + 1) % 2 ^ 64 * g.entry_size

/-! The parts of `LevelRead` take entries apart with `decode`: `entryAt` with assertions,
`entryUnchecked` without. -/

section

variable (decode : Bytes → ℕ → Option (Bytes × Bytes)) (compare : Bytes → Bytes → Ordering)
  (index_block : Block) (g : BlockGeometry)

/-- The block to read: if the interval spans two blocks, the last key of the first one decides. -/
def chooseBlock (k : Bytes) (index_lower index_upper : ℕ) : Option ℕ :=
  if index_lower ≠ index_upper then
    let mid_index_entry :=
      decodeFixed32 (index_block.data.drop (index_block.restart_offset + index_lower * 4))
    (decode (index_block.data.take index_block.restart_offset) mid_index_entry).map fun mid =>
      if compare mid.1 k = .lt then index_upper else index_lower
  else some index_lower

/-- The block, and the positions in it, to read for an interval.  `none` is also a division by
zero. -/
def blockRequest (k : Bytes) (lower upper : ℕ) : Option (ℕ × ℕ × ℕ) :=
  if g.block_num_entries = 0 then none
  else
    let index_lower := lower / g.block_num_entries
    let index_upper := upper / g.block_num_entries
    (chooseBlock decode compare index_block k index_lower index_upper).map fun i =>
      (i, if i = index_lower then lower % g.block_num_entries else 0,
        if i = index_upper then upper % g.block_num_entries else g.block_num_entries - 1)

/-- What to read for a key; nothing if the file model excludes it.  With `learned`, the caller
brings the interval from a level model; otherwise the file model is asked. -/
def readRequest (model : LearnedIndexData) (k : Bytes) (lower upper : ℕ) (learned : Bool) :
    Option (Option (ℕ × ℕ × ℕ)) :=
  if learned then (blockRequest decode compare index_block g k lower upper).map some
  else
    match model.getPosition (extractUserKey k) with
    | none => none
    | some (lower, upper) =>
      if lower > model.maxPosition then some none
      else (blockRequest decode compare index_block g k lower upper).map some

/-- The binary search over the entries from `pos_block_lower` to `pos_block_upper`. -/
def bisectEntries (k entries : Bytes) (pos_block_lower pos_block_upper : ℕ) :
    Option (Bytes × Bytes) :=
  (Bisect.lowerBound? (fun mid =>
    (decode entries ((mid - pos_block_lower) * g.entry_size)).map fun e => compare e.1 k == .lt)
    pos_block_lower pos_block_upper).bind fun left =>
      decode entries ((left - pos_block_lower) * g.entry_size)

end

section

variable {σ : Type} (compare : Bytes → Bytes → Ordering) (t : Table) (g : BlockGeometry)

/-- Read entries of block `i` and bisect them.  `none` is a failed assertion. -/
def searchBlock (k : Bytes) (arg : σ) (handle_result : σ → Bytes → Bytes → σ)
    (i pos_block_lower pos_block_upper : ℕ) : Option σ :=
  (readFile t.file (i * g.block_size + pos_block_lower * g.entry_size)
    (readSize g pos_block_lower pos_block_upper)).toOption.bind fun entries =>
      (bisectEntries entryAt compare g k entries pos_block_lower pos_block_upper).map fun entry =>
        handle_result arg entry.1 entry.2

/-- `TableCache::LevelRead` without a filter.  `none` stands for a failed assertion or a division by
zero. -/
def levelRead (model : LearnedIndexData) (k : Bytes) (arg : σ)
    (handle_result : σ → Bytes → Bytes → σ) (lower upper : ℕ) (learned : Bool) : Option σ :=
  (readRequest entryAt compare t.index_block g model k lower upper learned).bind fun request =>
    request.elim (some arg) fun q => searchBlock compare t g k arg handle_result q.1 q.2.1 q.2.2

end

section

variable {compare : Bytes → Bytes → Ordering} {index_block : Block} {g : BlockGeometry}
  {k : Bytes}

theorem entryUnchecked_of_entryAt {entries : Bytes} {offset : ℕ} {e : Bytes × Bytes}
    (h : entryAt entries offset = some e) : entryUnchecked entries offset = some e := by
  rw [entryAt] at h
  split at h
  · cases h
  · split_ifs at h
    exact h

theorem chooseBlock_unchecked {index_lower index_upper i : ℕ}
    (h : chooseBlock entryAt compare index_block k index_lower index_upper = some i) :
    chooseBlock entryUnchecked compare index_block k index_lower index_upper = some i := by
  rw [chooseBlock] at h ⊢
  split_ifs at h ⊢
  · obtain ⟨mid, hmid, hi⟩ := Option.map_eq_some_iff.1 h
    exact Option.map_eq_some_iff.2 ⟨mid, entryUnchecked_of_entryAt hmid, hi⟩
  · exact h

theorem blockRequest_unchecked {lower upper : ℕ} {r : ℕ × ℕ × ℕ}
    (h : blockRequest entryAt compare index_block g k lower upper = some r) :
    blockRequest entryUnchecked compare index_block g k lower upper = some r := by
  rw [blockRequest] at h ⊢
  split_ifs at h ⊢
  obtain ⟨i, hi, hr⟩ := Option.map_eq_some_iff.1 h
  exact Option.map_eq_some_iff.2 ⟨i, chooseBlock_unchecked hi, hr⟩

/-- **Where the assertions hold, the request is the same without them.** -/
theorem readRequest_unchecked {model : LearnedIndexData} {lower upper : ℕ} {learned : Bool}
    {r : Option (ℕ × ℕ × ℕ)}
    (h : readRequest entryAt compare index_block g model k lower upper learned = some r) :
    readRequest entryUnchecked compare index_block g model k lower upper learned = some r := by
  rw [readRequest] at h ⊢
  split_ifs at h ⊢
  · obtain ⟨q, hq, hr⟩ := Option.map_eq_some_iff.1 h
    exact Option.map_eq_some_iff.2 ⟨q, blockRequest_unchecked hq, hr⟩
  · cases hposition : model.getPosition (extractUserKey k) with
    | none =>
      rw [hposition] at h
      cases h
    | some bounds =>
      rw [hposition] at h
      dsimp only at h ⊢
      split_ifs at h ⊢
      · exact h
      · obtain ⟨q, hq, hr⟩ := Option.map_eq_some_iff.1 h
        exact Option.map_eq_some_iff.2 ⟨q, blockRequest_unchecked hq, hr⟩

theorem bisectEntries_unchecked {entries : Bytes} {a b : ℕ} {e : Bytes × Bytes}
    (h : bisectEntries entryAt compare g k entries a b = some e) :
    bisectEntries entryUnchecked compare g k entries a b = some e := by
  obtain ⟨left, hleft, he⟩ := Option.bind_eq_some_iff.1 h
  refine Option.bind_eq_some_iff.2 ⟨left, ?_, entryUnchecked_of_entryAt he⟩
  refine Bisect.lowerBound?_mono (fun mid before hmid => ?_) hleft
  obtain ⟨entry, hentry, hbefore⟩ := Option.map_eq_some_iff.1 hmid
  exact Option.map_eq_some_iff.2 ⟨entry, entryUnchecked_of_entryAt hentry, hbefore⟩

end

/-! ### The search over positions -/

/-- The search that `LevelRead` makes, over entry positions: `before p` says that the entry at `p`
is before the key, `B` is the number of entries in a block. -/
def searchPositions (before : ℕ → Bool) (B lower upper : ℕ) : ℕ :=
  let i := if lower / B ≠ upper / B ∧ before (lower / B * B + (B - 1)) = true then upper / B
    else lower / B
  i * B + Bisect.lowerBound (fun pos => before (i * B + pos))
    (if i = lower / B then lower % B else 0) (if i = upper / B then upper % B else B - 1)

section

variable {before : ℕ → Bool} {B lower upper : ℕ} (hB : 0 < B)
  (hmono : Bisect.MonoOn before 0 (upper + 1))
include hB hmono

/-- The positions the search runs over.  The window ends at `upper` or at an entry that is not
before the key, and it contains the first such entry if that lies in an interval of at most two
blocks. -/
theorem exists_window (hle : lower ≤ upper) :
    ∃ i a b, searchPositions before B lower upper =
        i * B + Bisect.lowerBound (fun pos => before (i * B + pos)) a b ∧
      a ≤ b ∧ i * B + b ≤ upper ∧
      (i * B + b = upper ∨ before (i * B + b) = false) ∧
      ∀ f, lower ≤ f → f ≤ upper → upper / B ≤ lower / B + 1 → before f = false →
        (∀ p < f, before p = true) → i * B + a ≤ f ∧ f ≤ i * B + b := by
  have hlower := Nat.div_add_mod' lower B
  have hupper := Nat.div_add_mod' upper B
  have hdiv : lower / B ≤ upper / B := Nat.div_le_div_right hle
  have hltl : lower % B < B := Nat.mod_lt _ hB
  rw [searchPositions]
  by_cases hspan : lower / B = upper / B
  · -- one block
    refine ⟨lower / B, lower % B, upper % B, ?_, ?_, ?_, ?_, ?_⟩
    · rw [if_neg fun h => h.1 hspan, if_pos rfl, if_pos hspan]
    · rw [hspan] at hlower; omega
    · rw [hspan]; omega
    · left; rw [hspan]; omega
    · intro f hlo hup _ _ _
      refine ⟨by omega, ?_⟩
      rw [hspan]; omega
  have hnext : lower / B * B + B ≤ upper / B * B := by
    have := Nat.mul_le_mul_right B (show lower / B + 1 ≤ upper / B by omega)
    rwa [Nat.add_mul, Nat.one_mul] at this
  by_cases hlast : before (lower / B * B + (B - 1)) = true
  · -- the key is behind the first block
    refine ⟨upper / B, 0, upper % B, ?_, Nat.zero_le _, by omega, by omega, ?_⟩
    · rw [if_pos ⟨hspan, hlast⟩, if_neg fun h => hspan h.symm, if_pos rfl]
    · intro f hlo hup htwo hf hbelow
      refine ⟨?_, by omega⟩
      have hstep : upper / B = lower / B + 1 := by omega
      rw [hstep, Nat.add_mul, Nat.one_mul]
      by_contra hlt
      -- the last entry of the first block would not be before the key
      have := hmono f (lower / B * B + (B - 1)) (Nat.zero_le _) (by omega) (by omega) hlast
      rw [hf] at this
      cases this
  · -- the key is in the first block
    refine ⟨lower / B, lower % B, B - 1, ?_, by omega, by omega, ?_, ?_⟩
    · rw [if_neg fun h => hlast h.2, if_pos rfl, if_neg hspan]
    · right; simpa using hlast
    · intro f hlo hup _ _ hbelow
      refine ⟨by omega, ?_⟩
      by_contra hlt
      exact hlast (hbelow _ (by omega))

/-- Unless the search ends at the upper end of the interval, it ends at an entry that is not before
the key. -/
theorem searchPositions_spec (hle : lower ≤ upper) :
    searchPositions before B lower upper ≤ upper ∧
      (searchPositions before B lower upper ≠ upper →
        before (searchPositions before B lower upper) = false) := by
  obtain ⟨i, a, b, heq, hab, hb, hend, -⟩ := exists_window hB hmono hle
  have hlocal : Bisect.MonoOn (fun pos => before (i * B + pos)) a b :=
    fun x y _ hxy hy => hmono _ _ (Nat.zero_le _) (by omega) (by omega)
  obtain ⟨-, hr, -, hafter⟩ := Bisect.lowerBound_spec hab hlocal
  rw [heq]
  refine ⟨by omega, fun hne => ?_⟩
  rcases hr.lt_or_eq with hlt | hlast
  · exact hafter _ le_rfl hlt
  · rw [hlast] at hne ⊢
    exact hend.resolve_left hne

theorem searchPositions_of_before (hle : lower ≤ upper) (hbefore : before upper = true) :
    searchPositions before B lower upper = upper := by
  obtain ⟨hup, hafter⟩ := searchPositions_spec hB hmono hle
  by_contra hne
  have htrue := hmono _ upper (Nat.zero_le _) hup (Nat.lt_succ_self upper) hbefore
  rw [hafter hne] at htrue
  cases htrue

/-- **The search finds the first entry that is not before the key**, if it lies in the interval and
the interval spans at most two blocks. -/
theorem searchPositions_eq (htwo : upper / B ≤ lower / B + 1) {f : ℕ} (hlo : lower ≤ f)
    (hup : f ≤ upper) (hf : before f = false) (hbelow : ∀ p < f, before p = true) :
    searchPositions before B lower upper = f := by
  obtain ⟨i, a, b, heq, hab, hb, -, hin⟩ := exists_window hB hmono (hlo.trans hup)
  obtain ⟨ha, hfb⟩ := hin f hlo hup htwo hf hbelow
  have hlocal : Bisect.MonoOn (fun pos => before (i * B + pos)) a b :=
    fun x y _ hxy hy => hmono _ _ (Nat.zero_le _) (by omega) (by omega)
  have hfi : i * B + (f - i * B) = f := by omega
  rw [heq, Bisect.lowerBound_eq (r := f - i * B) (by omega) (by omega) hlocal
    (fun x _ hx => hbelow _ (by omega)) (fun _ => by rw [hfi]; exact hf), hfi]

end

/-! ### Reading an interval of positions -/

section

variable {compare : Bytes → Bytes → Ordering} {crc : Bytes → UInt32} {R E : ℕ}
  {c₀ : List (Bytes × Bytes)} {cs : List (List (Bytes × Bytes))} {t : Table} {k : Bytes}

theorem entryAt_of_decodeEntry {entries : Bytes} {offset : ℕ} {e : Bytes × Bytes} {rest : Bytes}
    (h : decodeEntry (entries.drop offset) =
      some (0, e.1.length, e.2.length, e.1 ++ e.2 ++ rest)) :
    entryAt entries offset = some e := by
  rw [entryAt, entryUnchecked, h]
  simp only [ne_eq, not_true_eq_false, if_false]
  rw [append_assoc, take_left, drop_left, take_left]

theorem blockRequest_of_chooseBlock {decode : Bytes → ℕ → Option (Bytes × Bytes)}
    {index_block : Block} {g : BlockGeometry} {lower upper i : ℕ} (hB : 0 < g.block_num_entries)
    (hi : chooseBlock decode compare index_block k (lower / g.block_num_entries)
      (upper / g.block_num_entries) = some i) :
    blockRequest decode compare index_block g k lower upper = some (i,
      if i = lower / g.block_num_entries then lower % g.block_num_entries else 0,
      if i = upper / g.block_num_entries then upper % g.block_num_entries
        else g.block_num_entries - 1) := by
  rw [blockRequest, if_neg hB.ne']
  dsimp only
  rw [hi, Option.map_some]

/-- The last key of a block, read from the index. -/
theorem chooseBlock_eq (ht : Table.IsTable crc R cs t) {il iu : ℕ} (hil : il < cs.length) :
    chooseBlock entryAt compare t.index_block k il iu =
      some (if il ≠ iu ∧ compare (lastKey (cs.getD il [])) k = .lt then iu else il) := by
  have hfits := ht.fits.index
  by_cases hne : il = iu
  · rw [chooseBlock, if_neg (not_not.2 hne), if_neg fun h => h.1 hne]
  obtain ⟨it, -, hover, -⟩ := ht.index_iter
  have hnew := Block.new_blockBytes hfits
  -- the index block has one restart point for each entry
  have hcount : il < restartCount 1 (indexEntries crc R cs).length := by
    rw [restartCount, length_indexEntries, Nat.div_one]; omega
  have hpoint := Block.Iter.getRestartPoint_eq hover hcount
  rw [Block.Iter.getRestartPoint, hover.data, hover.restarts, Nat.mul_one] at hpoint
  have hdrop := Pieces.drop_offset_getElem (f := encodeEntry)
    (show (indexEntries crc R cs)[il]? = some (indexEntry crc R cs il) from
      indexEntries_getElem? hil)
  have hshort : (encodeEntry (indexEntry crc R cs il) ++
      ((indexEntries crc R cs).drop (il + 1)).flatMap encodeEntry).length < 2 ^ 32 := by
    rw [← hdrop, length_drop]
    have := length_blockBytes 1 (indexEntries crc R cs)
    omega
  have hdec := decodeEntry_encodeEntry _ _ hshort
  rw [← hdrop] at hdec
  rw [chooseBlock, if_pos hne, ht.index_block, hnew]
  simp only
  rw [hpoint, blockBytes, take_left, entryAt_of_decodeEntry hdec]
  simp only [ne_eq, hne, not_false_eq_true, true_and]
  rfl

/-- The entry at position `p` is before the key. -/
def isBefore (compare : Bytes → Bytes → Ordering) (es : List (Bytes × Bytes)) (k : Bytes) (p : ℕ) :
    Bool :=
  compare (es.getD p ([], [])).1 k == .lt

theorem monoOn_isBefore {es : List (Bytes × Bytes)} (hcut : Block.Iter.Cut compare es k) :
    Bisect.MonoOn (isBefore compare es k) 0 es.length := by
  intro p q _ hpq hq hbefore
  rcases hpq.eq_or_lt with rfl | hlt
  · exact hbefore
  have hpair := pairwise_iff_getElem.1 hcut p q (hlt.trans hq) hq hlt
  rw [isBefore, getD_eq_getElem _ _ hq, beq_iff_eq] at hbefore
  rw [isBefore, getD_eq_getElem _ _ (hlt.trans hq), beq_iff_eq]
  exact hpair hbefore

variable {c : List (Bytes × Bytes)} {a i : ℕ}

theorem entryAt_run (hE : ∀ e ∈ c, (encodeEntry e).length = E)
    (hfits : (c.flatMap encodeEntry).length < 2 ^ 32) {m : ℕ} (hm : a + m ≤ c.length)
    (ha : a ≤ i) (hi : i < a + m) :
    entryAt (((c.drop a).take m).flatMap encodeEntry) ((i - a) * E) =
      some (c.getD i ([], [])) := by
  have hlt : i < c.length := by omega
  obtain ⟨rest, hrest⟩ := IsUniform.decodeEntry_run hE hfits hm ha hi
    (List.getElem?_eq_getElem hlt)
  rw [entryAt_of_decodeEntry hrest, getD_eq_getElem _ _ hlt]

variable {σ : Type}

theorem searchBlock_eq (h : IsUniform E c₀.length (c₀ :: cs))
    (ht : Table.IsTable crc R (c₀ :: cs) t) (hcut : Block.Iter.Cut compare (c₀ :: cs).flatten k)
    (arg : σ) (handler : σ → Bytes → Bytes → σ) {b : ℕ}
    (hc : (c₀ :: cs)[i]? = some c) (hab : a ≤ b) (hb : b < c.length) :
    let x := (c₀ :: cs).flatten.getD (i * c₀.length + Bisect.lowerBound (fun pos =>
      isBefore compare (c₀ :: cs).flatten k (i * c₀.length + pos)) a b) ([], [])
    searchBlock compare t (geometryOf R E c₀) k arg handler i a b =
      some (handler arg x.1 x.2) := by
  intro x
  have hbytes := length_blockBytes R c
  have hsize := length_le_entries c
  have hfits := ht.fits.data c (mem_of_getElem? hc)
  have hcB : c.length ≤ c₀.length := h.le c (mem_of_getElem? hc)
  have hread : readSize (geometryOf R E c₀) a b = (b - a + 1) * E := by
    have hmod : (b + 2 ^ 64 - a + 1) % 2 ^ 64 = b - a + 1 := by omega
    rw [readSize, hmod, geometryOf]
  have hentry : ∀ pos, a ≤ pos → pos ≤ b →
      entryAt (((c.drop a).take (b - a + 1)).flatMap encodeEntry) ((pos - a) * E) =
        some ((c₀ :: cs).flatten.getD (i * c₀.length + pos) ([], [])) := by
    intro pos ha hpos
    rw [entryAt_run (h.entry_of_mem hc) (by omega) (by omega) ha (by omega),
      h.getD_position hc (by omega)]
  have hmono : Bisect.MonoOn (fun pos =>
      isBefore compare (c₀ :: cs).flatten k (i * c₀.length + pos)) a b := by
    intro p q _ hpq hq
    exact monoOn_isBefore hcut _ _ (Nat.zero_le _) (by omega) (h.position_lt hc (by omega))
  obtain ⟨hlo, hhi, -, -⟩ := Bisect.lowerBound_spec hab hmono
  rw [searchBlock, hread, geometryOf, h.read_entries ht hc (by omega)]
  simp only [Except.toOption, Option.bind_some]
  rw [bisectEntries, Bisect.lowerBound?_eq (q := fun pos =>
    isBefore compare (c₀ :: cs).flatten k (i * c₀.length + pos)), Option.bind_some,
    hentry _ hlo hhi]
  · rfl
  · intro pos ha hpos
    rw [hentry pos ha hpos.le, Option.map_some, isBefore]

/-- **`LevelRead` searches the positions of the interval** and hands over the entry it ends at. -/
theorem readInterval_eq (h : IsUniform E c₀.length (c₀ :: cs))
    (ht : Table.IsTable crc R (c₀ :: cs) t) (hcut : Block.Iter.Cut compare (c₀ :: cs).flatten k)
    (arg : σ) (handler : σ → Bytes → Bytes → σ) {lower upper : ℕ} (hle : lower ≤ upper)
    (hup : upper < (c₀ :: cs).flatten.length) :
    let x := (c₀ :: cs).flatten.getD (searchPositions
      (isBefore compare (c₀ :: cs).flatten k) c₀.length lower upper) ([], [])
    ((blockRequest entryAt compare t.index_block (geometryOf R E c₀) k lower upper).bind fun q =>
      searchBlock compare t (geometryOf R E c₀) k arg handler q.1 q.2.1 q.2.2) =
        some (handler arg x.1 x.2) := by
  intro x
  obtain ⟨cu, hcu, hmodu⟩ := h.exists_block hup
  have hpos := h.pos
  have hiu : upper / c₀.length < (c₀ :: cs).length := (List.getElem?_eq_some_iff.1 hcu).1
  have hdiv : lower / c₀.length ≤ upper / c₀.length := Nat.div_le_div_right hle
  have hil : lower / c₀.length < (c₀ :: cs).length := hdiv.trans_lt hiu
  have hcl := List.getElem?_eq_getElem hil
  -- the index block decides as the last position of the first block does
  have hcond : (lower / c₀.length ≠ upper / c₀.length ∧
      compare (lastKey ((c₀ :: cs).getD (lower / c₀.length) [])) k = .lt) =
      (lower / c₀.length ≠ upper / c₀.length ∧ isBefore compare (c₀ :: cs).flatten k
        (lower / c₀.length * c₀.length + (c₀.length - 1)) = true) := by
    rw [eq_iff_iff]
    refine and_congr_right fun hne => ?_
    rw [h.lastKey_eq (by omega), isBefore, beq_iff_eq]
  have hchoose : chooseBlock entryAt compare t.index_block k (lower / c₀.length)
      (upper / c₀.length) = _ := chooseBlock_eq ht hil
  simp only [hcond] at hchoose
  obtain ⟨i, hi⟩ : ∃ i, i = if lower / c₀.length ≠ upper / c₀.length ∧
      isBefore compare (c₀ :: cs).flatten k
        (lower / c₀.length * c₀.length + (c₀.length - 1)) = true
      then upper / c₀.length else lower / c₀.length := ⟨_, rfl⟩
  rw [← hi] at hchoose
  have hchosen : i = upper / c₀.length ∨ i = lower / c₀.length ∧ i ≠ upper / c₀.length := by
    rw [hi]; split_ifs <;> omega
  have hx : x = (c₀ :: cs).flatten.getD (i * c₀.length + Bisect.lowerBound (fun pos =>
      isBefore compare (c₀ :: cs).flatten k (i * c₀.length + pos))
      (if i = lower / c₀.length then lower % c₀.length else 0)
      (if i = upper / c₀.length then upper % c₀.length else c₀.length - 1)) ([], []) := by
    simp only [x, searchPositions, ← hi]
  have hB : (geometryOf R E c₀).block_num_entries = c₀.length := rfl
  have hrequest := blockRequest_of_chooseBlock (g := geometryOf R E c₀) hpos hchoose
  rw [hB] at hrequest
  rw [hrequest, Option.bind_some, hx]
  dsimp only
  rcases hchosen with hu | ⟨hl, hne⟩
  · -- the window ends in the block of `upper`
    refine searchBlock_eq h ht hcut arg handler (hu ▸ hcu) ?_ (by rw [if_pos hu]; exact hmodu)
    rw [if_pos hu]
    split_ifs with hil
    · have hlower := Nat.div_add_mod' lower c₀.length
      have hupper := Nat.div_add_mod' upper c₀.length
      rw [← hil] at hlower
      rw [← hu] at hupper
      omega
    · exact Nat.zero_le _
  · -- the first block is read to its end
    have hlen := h.length_eq hcl (by omega)
    have hmod := Nat.mod_lt lower hpos
    refine searchBlock_eq h ht hcut arg handler (by rw [hl]; exact hcl) ?_ ?_
    · rw [if_neg hne, if_pos hl]; omega
    · rw [if_neg hne]; omega

end

/-! ### Lookups in a table of decimal keys -/

/-- The open table of a file that was built from sorted entries of one encoded size `E`, whose user
keys are decimal numbers of length `len`.  The file is inside the limits of the format. -/
structure UniformTable (crc : Bytes → UInt32) (opts : Options) (len E : ℕ)
    (entries : List (InternalKey Bytes × Bytes)) (t : Table) : Prop
    extends Table.Opened crc opts (encodeEntries entries) t where
  sorted : entries.Pairwise fun a b => a.1 < b.1
  key : ∀ e ∈ entries, IsKey len e.1.user_key
  sequence : ∀ e ∈ entries, e.1.sequence ≤ kMaxSequenceNumber
  size : ∀ e ∈ entries, (encodeEntry (e.1.encode, e.2)).length = E

section

variable {crc : Bytes → UInt32} {opts : Options} {len E : ℕ}
  {entries : List (InternalKey Bytes × Bytes)} {t : Table} {g g₀ : BlockGeometry}
  {u : Bytes} {s : ℕ}

variable {p : ℕ}

theorem encodeEntries_getD (hp : p < entries.length) :
    (encodeEntries entries).getD p ([], []) = (entries[p].1.encode, entries[p].2) := by
  rw [getD_eq_getElem _ _ (by rw [length_encodeEntries]; exact hp)]
  simp only [encodeEntries, getElem_map]

variable {e : InternalKey Bytes × Bytes}

theorem compare_lookupKey (hs : s ≤ kMaxSequenceNumber)
    (he : e.1.sequence ≤ kMaxSequenceNumber) :
    InternalKeyComparator.compare e.1.encode (lookupKey u s).encode = .lt ↔
      e.1 < lookupKey u s := by
  rw [InternalKey.compare_encode he hs, cmp_eq_lt_iff]

theorem cut_lookupKey (hsorted : entries.Pairwise fun a b => a.1 < b.1)
    (hsequence : ∀ e ∈ entries, e.1.sequence ≤ kMaxSequenceNumber) (hs : s ≤ kMaxSequenceNumber) :
    Block.Iter.Cut InternalKeyComparator.compare (encodeEntries entries)
      (lookupKey u s).encode := by
  rw [Block.Iter.Cut, encodeEntries, pairwise_map]
  refine hsorted.imp_of_mem fun {a b} ha hb hab => ?_
  rw [compare_lookupKey hs (hsequence b hb), compare_lookupKey hs (hsequence a ha)]
  exact fun hlt => hab.trans hlt

variable {σ : Type}

/-- **The baseline lookup** hands over the first entry that is not before the lookup key. -/
theorem Table.Opened.internalGet_eq (h : Table.Opened crc opts (encodeEntries entries) t)
    (hsorted : entries.Pairwise fun a b => a.1 < b.1)
    (hsequence : ∀ e ∈ entries, e.1.sequence ≤ kMaxSequenceNumber) (hs : s ≤ kMaxSequenceNumber)
    (verify : Bool) (arg : σ) (handler : σ → Bytes → Bytes → σ) :
    t.internalGet InternalKeyComparator.compare crc verify (lookupKey u s).encode arg handler =
      (match entries.find? fun e => decide (lookupKey u s ≤ e.1) with
        | some e => handler arg e.1.encode e.2
        | none => arg, .ok) := by
  obtain ⟨cs, ht, hcs⟩ := h.layout
  have hfind : (encodeEntries entries).find? (fun e =>
      InternalKeyComparator.compare e.1 (lookupKey u s).encode != .lt) =
      (entries.find? fun e => decide (lookupKey u s ≤ e.1)).map fun e => (e.1.encode, e.2) := by
    rw [encodeEntries, List.find?_map]
    congr 1
    refine Pieces.find?_congr fun e he => ?_
    have := compare_lookupKey (u := u) hs (hsequence e he)
    rw [comp_apply, bne, Bool.eq_iff_iff, Bool.not_eq_true', beq_eq_false_iff_ne, ne_eq,
      this, decide_eq_true_eq, not_lt]
  have hcut := cut_lookupKey (u := u) hsorted hsequence hs
  rw [Table.internalGet_spec ht verify (by rw [hcs.flatten]; exact hcut), hcs.flatten, hfind]
  cases entries.find? fun e => decide (lookupKey u s ≤ e.1) <;> rfl

theorem UniformTable.cut (h : UniformTable crc opts len E entries t)
    (hs : s ≤ kMaxSequenceNumber) :
    Block.Iter.Cut InternalKeyComparator.compare (encodeEntries entries)
      (lookupKey u s).encode :=
  cut_lookupKey h.sorted h.sequence hs

theorem UniformTable.isBefore_iff (h : UniformTable crc opts len E entries t)
    (hs : s ≤ kMaxSequenceNumber) (hp : p < entries.length) :
    isBefore InternalKeyComparator.compare (encodeEntries entries) (lookupKey u s).encode p =
      true ↔ entries[p].1 < lookupKey u s := by
  rw [isBefore, encodeEntries_getD hp, beq_iff_eq,
    compare_lookupKey hs (h.sequence _ (getElem_mem hp))]

/-- The position at which a learned lookup ends. -/
def learnedPosition (entries : List (InternalKey Bytes × Bytes)) (g : BlockGeometry)
    (k : InternalKey Bytes) (lower upper : ℕ) : ℕ :=
  searchPositions (isBefore InternalKeyComparator.compare (encodeEntries entries) k.encode)
    g.block_num_entries lower upper

theorem UniformTable.fillData_eq (h : UniformTable crc opts len E entries t) {verify : Bool}
    {data data' : LearnedIndexData} (hfilled : data.filled = false)
    (hfill : t.fillData crc verify data g₀ = some (data', g)) :
    (∃ c₀ cs, Table.IsTable crc opts.block_restart_interval (c₀ :: cs) t ∧
      IsUniform E c₀.length (c₀ :: cs) ∧ Chunking opts (encodeEntries entries) (c₀ :: cs) ∧
      (g₀.block_num_entries_recorded = false →
        g = geometryOf opts.block_restart_interval E c₀)) ∧
    data'.string_keys = data.string_keys ++ entries.map (fun e => e.1.user_key) ∧
      data'.error = data.error ∧ data'.is_level = data.is_level := by
  obtain ⟨cs, ht, hcs⟩ := h.toOpened.layout
  cases cs with
  | nil => rw [Table.fillData_nil ht verify hfilled] at hfill; cases hfill
  | cons c₀ cs =>
    have hmem : ∀ {e}, e ∈ encodeEntries entries → ∃ x ∈ entries, (x.1.encode, x.2) = e :=
      fun he => mem_map.1 he
    have huni : IsUniform E c₀.length (c₀ :: cs) := hcs.uniform fun e he => by
      obtain ⟨x, hx, rfl⟩ := hmem he
      exact h.size x hx
    have hlong : ∀ e ∈ (c₀ :: cs).flatten, 8 ≤ e.1.length := by
      intro e he
      rw [hcs.flatten] at he
      obtain ⟨x, -, rfl⟩ := hmem he
      rw [InternalKey.length_encode]
      omega
    have hspec := Table.fillData_spec ht verify (cons_ne_nil _ _) hlong hfilled g₀
    obtain ⟨rfl, rfl⟩ := Prod.mk.inj (Option.some.inj (hfill.symm.trans hspec))
    obtain ⟨hkeys, herr, hlev, -⟩ := Table.foldl_collect (c₀ :: cs) data
    refine ⟨⟨c₀, cs, ht, huni, hcs, fun hg => ?_⟩, ?_, herr, hlev⟩
    · have huniform := fillData_uniform huni ht verify hlong hfilled hg
      exact (Prod.mk.inj (Option.some.inj (hspec.symm.trans huniform))).2
    simp only [hkeys, hcs.flatten, Table.userKeys, encodeEntries, map_map, comp_def,
      InternalKey.extractUserKey_encode]

variable {m : LearnedIndexData} {k : InternalKey Bytes} {lower upper : ℕ}

theorem bind_elim {α β : Type} (x : Option α) (b : Option β) (f : α → Option β) :
    ((x.map some).bind fun r => r.elim b f) = x.bind f := by
  cases x <;> rfl

theorem levelRead_excluded (hpos : m.getPosition k.user_key = some (lower, upper))
    (hmax : m.maxPosition < lower) (arg : σ) (handler : σ → Bytes → Bytes → σ) :
    levelRead InternalKeyComparator.compare t g m k.encode arg handler 0 0 false = some arg := by
  rw [levelRead, readRequest, if_neg Bool.false_ne_true, InternalKey.extractUserKey_encode, hpos]
  dsimp only
  rw [if_pos hmax, Option.bind_some, Option.elim_none]

/-- **The learned lookup** hands over the entry its search ends at. -/
theorem UniformTable.levelRead_eq (h : UniformTable crc opts len E entries t)
    (hs : s ≤ kMaxSequenceNumber) {c₀ : List (Bytes × Bytes)} {cs : List (List (Bytes × Bytes))}
    (ht : Table.IsTable crc opts.block_restart_interval (c₀ :: cs) t)
    (huni : IsUniform E c₀.length (c₀ :: cs)) (hflat : (c₀ :: cs).flatten = encodeEntries entries)
    (hpos : m.getPosition u = some (lower, upper))
    (hmax : lower ≤ m.maxPosition) (hle : lower ≤ upper) (hup : upper < entries.length) (arg : σ)
    (handler : σ → Bytes → Bytes → σ) :
    ∃ w, ∃ hw : w < entries.length,
      w = learnedPosition entries (geometryOf opts.block_restart_interval E c₀) (lookupKey u s)
        lower upper ∧
      levelRead InternalKeyComparator.compare t (geometryOf opts.block_restart_interval E c₀) m
        (lookupKey u s).encode arg handler 0 0 false =
        some (handler arg entries[w].1.encode entries[w].2) := by
  have hcut := h.cut (u := u) hs
  have hmono := (monoOn_isBefore hcut).mono le_rfl (show upper + 1 ≤ _ by
    rw [length_encodeEntries]; exact hup)
  have hw : learnedPosition entries (geometryOf opts.block_restart_interval E c₀) (lookupKey u s)
      lower upper < entries.length := (searchPositions_spec huni.pos hmono hle).1.trans_lt hup
  refine ⟨_, hw, rfl, ?_⟩
  have hread := readInterval_eq huni ht (by rw [hflat]; exact hcut) arg handler hle
    (by rw [hflat, length_encodeEntries]; exact hup)
  rw [hflat] at hread
  have hgoal := hread.trans (congrArg (fun x : Bytes × Bytes => some (handler arg x.1 x.2))
    (encodeEntries_getD hw))
  rw [levelRead, readRequest, if_neg Bool.false_ne_true, InternalKey.extractUserKey_encode,
    show (lookupKey u s).user_key = u from rfl, hpos]
  dsimp only
  rw [if_neg (not_lt.2 hmax), bind_elim]
  exact hgoal

theorem saveValue_of_ne {saver : Saver}
    (hk : k.sequence ≤ kMaxSequenceNumber) (hne : k.user_key ≠ saver.user_key) (v : Bytes) :
    saveValue saver k.encode v = saver := by
  rw [saveValue, InternalKey.parseInternalKey_encode hk]
  exact if_neg fun heq => hne (Slice.compare_eq_eq_iff.1 heq)

theorem UniformTable.keyList (h : UniformTable crc opts len E entries t)
    (hdistinct : entries.Pairwise fun a b => a.1.user_key ≠ b.1.user_key)
    (hbound : ∀ e ∈ entries, value e.1.user_key < 2 ^ 63) :
    entries.Pairwise (fun a b => a.1.user_key < b.1.user_key) ∧
      KeyList (entries.map fun e => e.1.user_key) := by
  have hlt : entries.Pairwise fun a b => a.1.user_key < b.1.user_key := by
    refine h.sorted.imp₂ (fun a b hab hne => ?_) hdistinct
    rcases InternalKey.lt_iff.1 hab with hlt | ⟨heq, -⟩
    · exact hlt
    · exact absurd heq hne
  refine ⟨hlt, fun k hk => ?_, ?_⟩
  · obtain ⟨e, he, rfl⟩ := mem_map.1 hk
    exact ⟨(h.key e he).1, hbound e he⟩
  · rw [pairwise_map]
    exact hlt.imp_of_mem fun ha hb hab => ((h.key _ ha).lt_iff (h.key _ hb)).1 hab

/-- **The learned read path agrees with the baseline read path** on a table of entries of one size
with distinct decimal keys: for a lookup that sees all entries, whenever the predicted interval
touches at most two blocks. -/
theorem levelRead_eq_internalGet (crc : Bytes → UInt32) (opts : Options) (len E e : ℕ)
    (entries : List (InternalKey Bytes × Bytes)) (t : Table) (g₀ g : BlockGeometry)
    (verify verify' : Bool) (awaiting : ℕ → Bool) (data data' m : LearnedIndexData) (u : Bytes)
    (s : ℕ) (saver : Saver) (h : UniformTable crc opts len E entries t)
    (hdistinct : entries.Pairwise fun a b => a.1.user_key ≠ b.1.user_key)
    (hbound : ∀ x ∈ entries, value x.1.user_key < 2 ^ 63) (he : 1 ≤ e) (herror : data.error = e)
    (hfile : data.is_level = false) (hempty : data.string_keys = [])
    (hfilled : data.filled = false) (hg : g₀.block_num_entries_recorded = false)
    (hfill : t.fillData crc verify data g₀ = some (data', g))
    (hlearn : data'.learn awaiting = some (m, true))
    (hs : ∀ x ∈ entries, x.1.sequence ≤ s) (hmax : s ≤ kMaxSequenceNumber)
    (htwo : ∀ lower upper, m.getPosition u = some (lower, upper) →
      upper / g.block_num_entries ≤ lower / g.block_num_entries + 1)
    (hsaver : saver.user_key = u) :
    levelRead InternalKeyComparator.compare t g m (lookupKey u s).encode saver saveValue 0 0 false =
      some (t.internalGet InternalKeyComparator.compare crc verify' (lookupKey u s).encode saver
        saveValue).1 := by
  obtain ⟨⟨c₀, cs, ht, huni, ⟨hflat, -, -, -⟩, hgeometry⟩, hkeys, herr, hlev⟩ :=
    h.fillData_eq hfilled hfill
  obtain rfl := hgeometry hg
  obtain ⟨hsorted, hlist⟩ := h.keyList hdistinct hbound
  rw [hempty, nil_append] at hkeys
  have he' : (1 : ℚ) ≤ data'.error := by rw [herr, herror]; exact_mod_cast he
  obtain ⟨hfit, -, herr', hlev', -⟩ := fitted_of_learn (by rw [hkeys]; exact hlist)
    (by linarith) hlearn
  rw [hkeys] at hfit
  have hn : m.size = entries.length := by rw [hfit.size, length_map]
  have hpos : 0 < entries.length := by rw [← hn, hfit.size]; exact hfit.pos
  have hshort : entries.length < 2 ^ 64 := by
    have h1 := Table.length_flatten_le crc opts.block_restart_interval (c₀ :: cs)
    have h2 := ht.fits.file
    rw [hflat, length_encodeEntries] at h1
    omega
  have hmaxpos : m.maxPosition = entries.length - 1 := by
    rw [maxPosition, hn]; omega
  obtain ⟨lower, upper, hint, hrange⟩ := hfit.getPosition_defined (by rw [herr']; linarith) u
  rw [length_map] at hrange
  rw [h.toOpened.internalGet_eq h.sorted h.sequence hmax verify']
  by_cases hstored : ∃ p, ∃ hp : p < entries.length, entries[p].1.user_key = u
  · -- both paths hand over the one entry of the key
    obtain ⟨p, hp, hpu⟩ := hstored
    have hat : lookupKey u s ≤ entries[p].1 :=
      lookupKey_le_iff.2 (Or.inr ⟨hpu.symm, hs _ (getElem_mem hp)⟩)
    have hbelow : ∀ q, ∀ hq : q < p, entries[q].1 < lookupKey u s := by
      intro q hq
      refine InternalKey.lt_of_user_key_lt ?_
      have := pairwise_iff_getElem.1 hsorted q p (hq.trans hp) hp hq
      rwa [hpu] at this
    have hkey : sliceToInteger u = keyValue (entries.map fun x => x.1.user_key) p := by
      have hp' : p < (entries.map fun x => x.1.user_key).length := by rwa [length_map]
      rw [← hlist.sliceToInteger_getD hp', getD_eq_getElem _ _ hp', getElem_map, hpu]
    obtain ⟨lower', upper', hint', hlo, hup, hend⟩ := hfit.file_contains (hlev'.trans
      (hlev.trans hfile)) (by rwa [length_map]) hkey
    rw [hint, Option.some.injEq, Prod.mk.injEq] at hint'
    obtain ⟨rfl, rfl⟩ := hint'
    have hupper : upper < entries.length := by omega
    obtain ⟨w, hw, hwdef, hread⟩ := h.levelRead_eq hmax ht huni hflat hint
      (by rw [hmaxpos]; omega) (hlo.trans hup) hupper saver saveValue
    have hwp : w = p := by
      rw [hwdef]
      refine searchPositions_eq huni.pos ((monoOn_isBefore (h.cut hmax)).mono le_rfl ?_)
        (htwo lower upper hint) hlo hup ?_ ?_
      · rw [length_encodeEntries]; exact hupper
      · rw [← Bool.not_eq_true, h.isBefore_iff hmax hp, not_lt]
        exact hat
      · intro q hq
        rw [h.isBefore_iff hmax (hq.trans hp)]
        exact hbelow q hq
    subst hwp
    have hfind : entries.find? (fun x => decide (lookupKey u s ≤ x.1)) = some entries[w] := by
      rw [List.find?_eq_some_iff_getElem]
      refine ⟨decide_eq_true hat, w, hw, rfl, fun q hq => ?_⟩
      simpa using hbelow q hq
    rw [hread, hfind]
  · -- no entry has the key: whatever is handed over leaves the result alone
    have hother : ∀ x ∈ entries, saveValue saver x.1.encode x.2 = saver := by
      intro x hx
      refine saveValue_of_ne (h.sequence x hx) ?_ x.2
      rw [hsaver]
      intro hxu
      obtain ⟨p, hp, rfl⟩ := getElem_of_mem hx
      exact hstored ⟨p, hp, hxu⟩
    have hbase : (match entries.find? fun x => decide (lookupKey u s ≤ x.1) with
        | some x => saveValue saver x.1.encode x.2
        | none => saver) = saver := by
      cases hfind : entries.find? fun x => decide (lookupKey u s ≤ x.1) with
      | none => rfl
      | some x => exact hother x (mem_of_find?_eq_some hfind)
    rw [hbase]
    rcases hrange with ⟨rfl, -⟩ | ⟨hle, hup⟩
    · exact levelRead_excluded hint (by rw [hmaxpos]; omega) saver saveValue
    · obtain ⟨w, hw, -, hread⟩ := h.levelRead_eq hmax ht huni hflat hint
        (by rw [hmaxpos]; omega) hle hup saver saveValue
      rw [hread, hother _ (getElem_mem hw)]

/-- A table of the keys `1`, `2` and `3` in two blocks.  The interval predicted for `3` spans both
blocks. -/
theorem levelRead_eq_internalGet_two_blocks :
    let crc : Bytes → UInt32 := fun _ => 0
    let opts : Options := ⟨30, 1⟩
    let entries : List (InternalKey Bytes × Bytes) :=
      [(⟨[49], 3, .value⟩, [97]), (⟨[50], 7, .value⟩, [98]), (⟨[51], 5, .value⟩, [99])]
    let t : Table := ⟨build crc opts (encodeEntries entries), Block.new [0, 9, 2, 50, 1, 7, 0, 0, 0,
      0, 0, 0, 0, 38, 0, 9, 2, 51, 1, 5, 0, 0, 0, 0, 0, 0, 43, 21, 0, 0, 0, 0, 14, 0,
      0, 0, 2, 0, 0, 0]⟩
    let data := LearnedIndexData.new 1 1 false
    let data' := { data with
      filled := true, string_keys := [[49], [50], [51]]
      num_entries_accumulated := [(2, [50]), (3, [51])] }
    let m := { data' with
      learned := true, string_segments := [⟨1, 1, -1⟩, ⟨3, 0, 0⟩], min_key := 1, max_key := 3
      size := 3 }
    let g : BlockGeometry := ⟨2, 43, 13, true⟩
    let saver : Saver := ⟨.kNotFound, [51], []⟩
    UniformTable crc opts 1 13 entries t ∧
      t.fillData crc true data ⟨0, 0, 0, false⟩ = some (data', g) ∧
      data'.learn (fun _ => false) = some (m, true) ∧ m.getPosition [51] = some (1, 2) ∧
      levelRead InternalKeyComparator.compare t g m (lookupKey [51] 9).encode saver saveValue 0 0
        false = some (t.internalGet InternalKeyComparator.compare crc true
          (lookupKey [51] 9).encode saver saveValue).1 := by
  intro crc opts entries t data data' m g saver
  have ht : UniformTable crc opts 1 13 entries t :=
    ⟨⟨by decide, fun cs hcs => Table.fits_of_length_lt (by rw [← hcs]; decide +kernel),
      ⟨true, by decide +kernel⟩⟩, by decide +kernel, by decide +kernel, by decide +kernel,
      by decide +kernel⟩
  have hfill : t.fillData crc true data ⟨0, 0, 0, false⟩ = some (data', g) := by decide +kernel
  have hlearn : data'.learn (fun _ => false) = some (m, true) := by decide +kernel
  have hpos : m.getPosition [51] = some (1, 2) := by decide +kernel
  refine ⟨ht, hfill, hlearn, hpos, ?_⟩
  refine levelRead_eq_internalGet crc opts 1 13 1 entries t _ g true true _ data data'
    m [51] 9 saver
    ht (by decide +kernel) (by decide +kernel) le_rfl (by decide +kernel) rfl rfl rfl
    rfl hfill hlearn
    (by decide +kernel) (by decide +kernel) ?_ rfl
  intro lower upper h
  rw [hpos, Option.some.injEq, Prod.mk.injEq] at h
  obtain ⟨rfl, rfl⟩ := h
  decide

/-! ### Older snapshots -/

/-- The handler that notes the entry it receives. -/
def noteEntry (_ : Option (Bytes × Bytes)) (ikey v : Bytes) : Option (Bytes × Bytes) :=
  some (ikey, v)

/-- The note holds an entry of `u` that is newer than `s`. -/
def PastSnapshot (u : Bytes) (s : ℕ) (note : Option (Bytes × Bytes)) : Prop :=
  ∃ ikey v key, note = some (ikey, v) ∧ parseInternalKey ikey = some key ∧ key.user_key = u ∧
    s < key.sequence

theorem pastSnapshot_encode
    (he : e.1.sequence ≤ kMaxSequenceNumber) :
    PastSnapshot u s (some (e.1.encode, e.2)) ↔ e.1.user_key = u ∧ s < e.1.sequence := by
  constructor
  · rintro ⟨ikey, v, key, hnote, hparse, hkey⟩
    cases hnote
    rw [InternalKey.parseInternalKey_encode he, Option.some.injEq] at hparse
    rwa [hparse]
  · intro hkey
    exact ⟨_, _, e.1, rfl, InternalKey.parseInternalKey_encode he, hkey⟩

theorem not_pastSnapshot_none : ¬ PastSnapshot u s none := by
  rintro ⟨ikey, v, key, hnote, -⟩
  cases hnote

theorem lt_lookupKey_iff (hk : k.user_key = u) :
    k < lookupKey u s ↔ s < k.sequence := by
  rw [← not_le, lookupKey_le_iff, hk]
  simp

/-- **A learned lookup sees past its snapshot** exactly if the entry at the upper end of the
predicted interval is an entry of the key that is newer than the snapshot. -/
theorem levelRead_past_snapshot_iff (crc : Bytes → UInt32) (opts : Options) (len E : ℕ)
    (entries : List (InternalKey Bytes × Bytes)) (t : Table) (g₀ g : BlockGeometry)
    (verify : Bool) (data data' m : LearnedIndexData) (u : Bytes) (s lower upper : ℕ)
    (h : UniformTable crc opts len E entries t)
    (hfilled : data.filled = false) (hg : g₀.block_num_entries_recorded = false)
    (hfill : t.fillData crc verify data g₀ = some (data', g)) (hsize : m.size = entries.length)
    (herror : 0 ≤ m.error) (hs : s ≤ kMaxSequenceNumber)
    (hpos : m.getPosition u = some (lower, upper)) :
    ∃ note, levelRead InternalKeyComparator.compare t g m (lookupKey u s).encode none noteEntry 0 0
        false = some note ∧
      (PastSnapshot u s note ↔
        ∃ x, entries[upper]? = some x ∧ x.1.user_key = u ∧ s < x.1.sequence) := by
  obtain ⟨⟨c₀, cs, ht, huni, ⟨hflat, -, -, -⟩, hgeometry⟩, -⟩ := h.fillData_eq hfilled hfill
  obtain rfl := hgeometry hg
  have hcount := Table.length_flatten_le crc opts.block_restart_interval (c₀ :: cs)
  have hfits := ht.fits.file
  have hentries : 0 < entries.length := by
    rw [← length_encodeEntries, ← hflat]
    exact length_pos_of_mem (mem_flatten.2 ⟨c₀, mem_cons_self, getElem_mem huni.pos⟩)
  rw [hflat, length_encodeEntries] at hcount
  have hmaxpos : m.maxPosition = entries.length - 1 := by
    rw [maxPosition, hsize]; omega
  have hrange := getPosition_range herror hpos
  rw [hsize] at hrange
  rcases hrange with ⟨rfl, rfl⟩ | ⟨hle, hup⟩
  · -- the model excludes the key
    refine ⟨none, levelRead_excluded (k := lookupKey u s) hpos (by rw [hmaxpos]; omega) _ _, ?_⟩
    rw [List.getElem?_eq_none le_rfl]
    simp only [reduceCtorEq, false_and, exists_false, iff_false]
    exact not_pastSnapshot_none
  · obtain ⟨w, hw, hwdef, heq⟩ := h.levelRead_eq hs ht huni hflat hpos (by rw [hmaxpos]; omega) hle
      hup none noteEntry
    have hmono := (monoOn_isBefore (h.cut (u := u) hs)).mono le_rfl (show upper + 1 ≤ _ by
      rw [length_encodeEntries]; exact hup)
    refine ⟨_, heq, ?_⟩
    rw [noteEntry, pastSnapshot_encode (h.sequence _ (getElem_mem hw)),
      List.getElem?_eq_getElem hup]
    constructor
    · -- an entry before the lookup key is only handed over at the upper end
      rintro ⟨hwu, hws⟩
      have hend : w = upper := by
        by_contra hne
        have hfalse : isBefore InternalKeyComparator.compare (encodeEntries entries)
            (lookupKey u s).encode w = false := by
          rw [hwdef] at hne ⊢
          exact (searchPositions_spec huni.pos hmono hle).2 hne
        rw [← Bool.not_eq_true, h.isBefore_iff hs hw, lt_lookupKey_iff hwu] at hfalse
        exact hfalse hws
      subst hend
      exact ⟨_, rfl, hwu, hws⟩
    · rintro ⟨x, hx, hxu, hxs⟩
      rw [Option.some.injEq] at hx
      subst hx
      have hend : w = upper := by
        rw [hwdef]
        exact searchPositions_of_before huni.pos hmono hle
          ((h.isBefore_iff hs hup).2 ((lt_lookupKey_iff hxu).2 hxs))
      subst hend
      exact ⟨hxu, hxs⟩

end

/-! A file with one entry, written at sequence number 5, and the model trained on it. -/

namespace OneEntry

/-- Every entry is a restart point. -/
def opts : Options := ⟨4096, 1⟩

/-- The entry. -/
def entries : List (InternalKey Bytes × Bytes) := [(⟨[49], 5, .value⟩, [97])]

/-- The file, opened. -/
def table : Table :=
  ⟨build zeroCrc opts (encodeEntries entries),
    Block.new [0, 9, 2, 49, 1, 5, 0, 0, 0, 0, 0, 0, 0, 21, 0, 0, 0, 0, 1, 0, 0, 0]⟩

/-- The model after `FillData`. -/
def filledData : LearnedIndexData :=
  { LearnedIndexData.new 1 1 false with
    filled := true, string_keys := [[49]], num_entries_accumulated := [(1, [49])] }

/-- The model after training. -/
def model : LearnedIndexData :=
  { filledData with
    learned := true, string_segments := [⟨1, 0, 0⟩, ⟨1, 0, 0⟩], min_key := 1, max_key := 1
    size := 1 }

/-- What `FillData` records. -/
def geometry : BlockGeometry := ⟨1, 26, 13, true⟩

theorem uniformTable : UniformTable zeroCrc opts 1 13 entries table :=
  ⟨⟨by decide, fun cs hcs => Table.fits_of_length_lt (by rw [← hcs]; decide +kernel),
    ⟨true, by decide +kernel⟩⟩, by decide +kernel, by decide +kernel, by decide +kernel,
    by decide +kernel⟩

theorem fillData_eq :
    table.fillData zeroCrc true (LearnedIndexData.new 1 1 false) ⟨0, 0, 0, false⟩ =
      some (filledData, geometry) := by
  decide +kernel

theorem learn_eq : filledData.learn (fun _ => false) = some (model, true) := by decide +kernel

end OneEntry

open OneEntry in
/-- At the snapshot 3 the learned lookup hands over the entry written at 5; the baseline lookup does
not. -/
theorem levelRead_past_snapshot_one_entry :
    UniformTable zeroCrc opts 1 13 entries table ∧
      table.fillData zeroCrc true (LearnedIndexData.new 1 1 false) ⟨0, 0, 0, false⟩ =
        some (filledData, geometry) ∧
      filledData.learn (fun _ => false) = some (model, true) ∧
      (∃ note, levelRead InternalKeyComparator.compare table geometry model
          (lookupKey [49] 3).encode none noteEntry 0 0 false = some note ∧
        PastSnapshot [49] 3 note) ∧
      (table.internalGet InternalKeyComparator.compare zeroCrc true (lookupKey [49] 3).encode none
        noteEntry).1 = none := by
  refine ⟨uniformTable, fillData_eq, learn_eq, ⟨some (InternalKey.encode ⟨[49], 5, .value⟩, [97]),
    by decide +kernel, ?_⟩, by decide +kernel⟩
  exact (pastSnapshot_encode (e := (⟨[49], 5, .value⟩, [97])) (by decide)).2 ⟨rfl, by decide⟩

open OneEntry in
/-- The interval predicted for the key ends at its entry, which the snapshot does not see. -/
theorem levelRead_past_snapshot_iff_one_entry :
    model.getPosition [49] = some (0, 0) ∧
      ∃ note, levelRead InternalKeyComparator.compare table geometry model
          (lookupKey [49] 3).encode none noteEntry 0 0 false = some note ∧
        (PastSnapshot [49] 3 note ↔
          ∃ x, entries[0]? = some x ∧ x.1.user_key = [49] ∧ 3 < x.1.sequence) := by
  have hpos : model.getPosition [49] = some (0, 0) := by decide +kernel
  exact ⟨hpos, levelRead_past_snapshot_iff zeroCrc opts 1 13 entries table _ geometry
    true _ filledData
    model [49] 3 0 0 uniformTable rfl rfl fillData_eq rfl (by decide +kernel) (by decide) hpos⟩

end Bourbon
