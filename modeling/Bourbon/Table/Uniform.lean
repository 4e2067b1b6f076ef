import Bourbon.Table.Table

/-!
# Tables of entries of one size

A learned lookup computes byte offsets from entry positions by division.  This is sound for a table
whose entries have one encoded size `E`: then every data block but the last one has the same number
`B` of entries and the same length.

* `Chunking.uniform` : the builder divides such entries into blocks of one length;
* `IsUniform.read_entries` : a run of entries of one block read at its computed offset;
* `fillData_uniform` : the geometry that `fillData` records is the one of all blocks.
-/

namespace Bourbon

open List

/-- Blocks of entries of encoded size `E`, with `B` entries in every block but the last. -/
structure IsUniform (E B : ℕ) (cs : List (List (Bytes × Bytes))) : Prop where
  entry : ∀ e ∈ cs.flatten, (encodeEntry e).length = E
  full : ∀ c ∈ cs.dropLast, c.length = B
  le : ∀ c ∈ cs, c.length ≤ B
  pos : 0 < B

/-! ### Division into blocks -/

section

variable {opts : Options} {E : ℕ} {c c' : List (Bytes × Bytes)}

theorem length_blockBytes_uniform (R : ℕ) (h : ∀ e ∈ c, (encodeEntry e).length = E) :
    (blockBytes R c).length = c.length * E + restartCount R c.length * 4 + 4 := by
  rw [length_blockBytes, Pieces.length_uniform h]

/-- The number of entries of size `E` that fill a block. -/
def entriesPerBlock (opts : Options) (E : ℕ) : ℕ :=
  ((List.range opts.block_size).findIdx fun c =>
    opts.block_size ≤ (c + 1) * E + restartCount opts.block_restart_interval (c + 1) * 4 + 4) + 1

theorem lt_of_lt_entriesPerBlock {n : ℕ} (hpos : 0 < n) (hn : n < entriesPerBlock opts E) :
    n * E + restartCount opts.block_restart_interval n * 4 + 4 < opts.block_size := by
  obtain ⟨n, rfl⟩ := Nat.exists_eq_succ_of_ne_zero hpos.ne'
  have hnot := not_of_lt_findIdx (Nat.lt_of_succ_lt_succ hn)
  rw [getElem_range] at hnot
  simpa using hnot

theorem entriesPerBlock_full (hE : 0 < E) : opts.block_size ≤ entriesPerBlock opts E * E +
    restartCount opts.block_restart_interval (entriesPerBlock opts E) * 4 + 4 := by
  by_cases hzero : opts.block_size = 0
  · omega
  have hex : ∃ c ∈ List.range opts.block_size, decide (opts.block_size ≤
      (c + 1) * E + restartCount opts.block_restart_interval (c + 1) * 4 + 4) = true := by
    refine ⟨opts.block_size - 1, mem_range.2 (by omega), decide_eq_true ?_⟩
    have := Nat.le_mul_of_pos_right (opts.block_size - 1 + 1) hE
    omega
  have hfound := findIdx_getElem (w := findIdx_lt_length_of_exists hex)
  rw [getElem_range] at hfound
  exact of_decide_eq_true hfound

theorem Below.length_lt_entriesPerBlock (h : Below opts c)
    (hc : ∀ e ∈ c, (encodeEntry e).length = E) : c.length < entriesPerBlock opts E := by
  by_contra hlt
  have htake : (c.take (entriesPerBlock opts E)).length = entriesPerBlock opts E := by
    rw [length_take]
    omega
  have hne : c.take (entriesPerBlock opts E) ≠ [] := by
    rw [← length_pos_iff, htake]
    exact Nat.succ_pos _
  obtain ⟨e, he⟩ := exists_mem_of_ne_nil _ hne
  have hpos := three_le_length_encodeEntry e
  rw [hc e (mem_of_mem_take he)] at hpos
  have hsmall := h _ (List.take_prefix _ _) hne
  rw [length_blockBytes_uniform _ fun e he => hc e (mem_of_mem_take he), htake] at hsmall
  have hfull := @entriesPerBlock_full opts E (by omega)
  omega

/-- **Full blocks have `entriesPerBlock` entries.** -/
theorem Full.length_eq_entriesPerBlock (h : Full opts c)
    (hc : ∀ e ∈ c, (encodeEntry e).length = E) : c.length = entriesPerBlock opts E := by
  obtain ⟨d, e, rfl, hbelow, hsize⟩ := h
  have hlt := hbelow.length_lt_entriesPerBlock fun e he => hc e (mem_append_left _ he)
  rw [length_blockBytes_uniform _ hc] at hsize
  rw [length_append, length_singleton] at hsize ⊢
  by_contra hne
  have hsmall := lt_of_lt_entriesPerBlock (show 0 < d.length + 1 by omega)
    (show d.length + 1 < entriesPerBlock opts E by omega)
  omega

theorem Below.length_lt (h : Below opts c) (h' : Full opts c')
    (hc : ∀ e ∈ c, (encodeEntry e).length = E) (hc' : ∀ e ∈ c', (encodeEntry e).length = E) :
    c.length < c'.length := by
  rw [h'.length_eq_entriesPerBlock hc']
  exact h.length_lt_entriesPerBlock hc

theorem Full.length_eq (h : Full opts c) (h' : Full opts c')
    (hc : ∀ e ∈ c, (encodeEntry e).length = E) (hc' : ∀ e ∈ c', (encodeEntry e).length = E) :
    c.length = c'.length :=
  (h.length_eq_entriesPerBlock hc).trans (h'.length_eq_entriesPerBlock hc').symm

variable {entries c₀ : List (Bytes × Bytes)} {cs : List (List (Bytes × Bytes))}

/-- **Entries of one size are divided into blocks of the length of the first one**; only the last
block may be shorter. -/
theorem Chunking.uniform
    (h : Chunking opts entries (c₀ :: cs)) (hE : ∀ e ∈ entries, (encodeEntry e).length = E) :
    IsUniform E c₀.length (c₀ :: cs) := by
  rw [← h.flatten] at hE
  have hmem : ∀ {c}, c ∈ c₀ :: cs → ∀ e ∈ c, (encodeEntry e).length = E :=
    fun hc e he => hE e (mem_flatten.2 ⟨_, hc, he⟩)
  have h₀ : c₀ ∈ c₀ :: cs := mem_cons_self
  have hpos : 0 < c₀.length := length_pos_iff.2 (h.ne_nil c₀ h₀)
  cases cs with
  | nil =>
    refine ⟨hE, by simp, ?_, hpos⟩
    intro c hc
    rw [mem_singleton.1 hc]
  | cons c₁ cs =>
    have hfull₀ : Full opts c₀ := h.full c₀ (by simp)
    refine ⟨hE, fun c hc => ?_, fun c hc => ?_, hpos⟩
    · have hc' := dropLast_subset _ hc
      exact (h.full c hc).length_eq hfull₀ (hmem hc') (hmem h₀)
    · rcases h.last c hc with hfull | hbelow
      · exact (hfull.length_eq hfull₀ (hmem hc) (hmem h₀)).le
      · exact (hbelow.length_lt hfull₀ (hmem hc) (hmem h₀)).le

theorem Chunking.length_head_le (h : Chunking opts entries (c₀ :: cs))
    (hE : ∀ e ∈ entries, (encodeEntry e).length = E) : c₀.length ≤ entriesPerBlock opts E := by
  have hc : ∀ e ∈ c₀, (encodeEntry e).length = E := fun e he =>
    hE e (h.flatten ▸ mem_flatten.2 ⟨c₀, mem_cons_self, he⟩)
  rcases h.last c₀ mem_cons_self with hfull | hbelow
  · exact (hfull.length_eq_entriesPerBlock hc).le
  · exact (hbelow.length_lt_entriesPerBlock hc).le

end

/-! ### Positions -/

namespace IsUniform

variable {crc : Bytes → UInt32} {R E B : ℕ} {c₀ : List (Bytes × Bytes)}
  {cs : List (List (Bytes × Bytes))} {c : List (Bytes × Bytes)} {j : ℕ}

theorem entry_of_mem (h : IsUniform E B cs) (hc : cs[j]? = some c) :
    ∀ e ∈ c, (encodeEntry e).length = E :=
  fun e he => h.entry e (mem_flatten.2 ⟨c, mem_of_getElem? hc, he⟩)

theorem getElem?_flatten (h : IsUniform E B cs) (p : ℕ) :
    cs.flatten[p]? = cs[p / B]?.bind fun block => block[p % B]? :=
  Pieces.getElem?_flatten h.pos h.full h.le p

variable {m : ℕ}

theorem getElem?_position (h : IsUniform E B cs) (hc : cs[j]? = some c) (hm : m < B) :
    cs.flatten[j * B + m]? = (c)[m]? := by
  have hdiv : (j * B + m) / B = j := by
    rw [Nat.add_comm, Nat.add_mul_div_right _ _ h.pos, Nat.div_eq_of_lt hm, Nat.zero_add]
  have hmod : (j * B + m) % B = m := by
    rw [Nat.add_comm, Nat.add_mul_mod_self_right, Nat.mod_eq_of_lt hm]
  rw [h.getElem?_flatten, hdiv, hmod, hc, Option.bind_some]

theorem getD_position (h : IsUniform E B cs) (hc : cs[j]? = some c) (hm : m < B)
    (d : Bytes × Bytes) : cs.flatten.getD (j * B + m) d = c.getD m d := by
  rw [getD_eq_getElem?_getD, h.getElem?_position hc hm, getD_eq_getElem?_getD]

theorem position_lt (h : IsUniform E B cs) (hc : cs[j]? = some c) (hm : m < c.length) :
    j * B + m < cs.flatten.length := by
  have hget := h.getElem?_position hc (hm.trans_le (h.le c (mem_of_getElem? hc)))
  rw [List.getElem?_eq_getElem hm] at hget
  exact (List.getElem?_eq_some_iff.1 hget).1

theorem exists_block (h : IsUniform E B cs) {p : ℕ} (hp : p < cs.flatten.length) :
    ∃ c, cs[p / B]? = some c ∧ p % B < c.length := by
  have hget := h.getElem?_flatten p
  rw [List.getElem?_eq_getElem hp] at hget
  obtain ⟨c, hc, hcp⟩ := Option.bind_eq_some_iff.1 hget.symm
  exact ⟨c, hc, (List.getElem?_eq_some_iff.1 hcp).1⟩

theorem length_eq (h : IsUniform E B cs) (hc : cs[j]? = some c) (hj : j + 1 < cs.length) :
    c.length = B := by
  obtain ⟨hlt, rfl⟩ := List.getElem?_eq_some_iff.1 hc
  have hlast : j < cs.dropLast.length := by rw [length_dropLast]; omega
  have hget : cs.dropLast[j] = cs[j] := getElem_dropLast hlast
  rw [← hget]
  exact h.full _ (getElem_mem hlast)

theorem lastKey_eq (h : IsUniform E B cs) (hj : j + 1 < cs.length) :
    lastKey (cs.getD j []) = (cs.flatten.getD (j * B + (B - 1)) ([], [])).1 := by
  have hlt : j < cs.length := by omega
  have hc := List.getElem?_eq_getElem hlt
  have hpos := h.pos
  rw [h.getD_position hc (by omega), getD_eq_getElem _ _ hlt, lastKey,
    getLastD_eq_getLast?, List.getLast?_eq_getElem?, h.length_eq hc hj,
    getD_eq_getElem?_getD]

theorem offset_eq (h : IsUniform E c₀.length (c₀ :: cs)) (hj : j < (c₀ :: cs).length) :
    Pieces.offset (dataBlock crc R) (c₀ :: cs) j =
      j * ((blockBytes R c₀).length + kBlockTrailerSize) := by
  have hlast : j ≤ (c₀ :: cs).dropLast.length := by rw [length_dropLast]; omega
  have hsize : ∀ c ∈ (c₀ :: cs).dropLast,
      (dataBlock crc R c).length = (blockBytes R c₀).length + kBlockTrailerSize := by
    intro c hc
    have hmem : ∀ {c}, c ∈ c₀ :: cs → ∀ e ∈ c, (encodeEntry e).length = E :=
      fun hc e he => h.entry e (mem_flatten.2 ⟨_, hc, he⟩)
    rw [dataBlock, length_storedBlock,
      length_blockBytes_uniform R (hmem (dropLast_subset _ hc)), h.full c hc,
      length_blockBytes_uniform R (hmem mem_cons_self)]
  rw [← Pieces.offset_uniform hsize hlast, Pieces.offset, Pieces.offset, dropLast_eq_take,
    take_take, Nat.min_eq_left (by rw [length_dropLast] at hlast; exact hlast)]

variable {a : ℕ}

/-- **A run of entries read at its computed offset.** -/
theorem read_entries (h : IsUniform E c₀.length (c₀ :: cs)) {t : Table}
    (ht : Table.IsTable crc R (c₀ :: cs) t) (hc : (c₀ :: cs)[j]? = some c)
    (hm : a + m ≤ c.length) :
    readFile t.file (j * ((blockBytes R c₀).length + kBlockTrailerSize) + a * E) (m * E) =
      .ok (((c.drop a).take m).flatMap encodeEntry) := by
  obtain ⟨pre, post, hsplit, hpre⟩ := Table.tableBytes_split crc R hc
  have hj : j < (c₀ :: cs).length := (List.getElem?_eq_some_iff.1 hc).1
  have hE := h.entry_of_mem hc
  have hfits := ht.fits.file
  have hbound : (a + m) * E ≤ (c.flatMap encodeEntry).length := by
    rw [Pieces.length_uniform hE]
    exact Nat.mul_le_mul_right E hm
  rw [Nat.add_mul] at hbound
  have hblock := length_blockBytes R c
  have hlen := Table.block_le crc R hc
  rw [h.offset_eq hj] at hlen hpre
  rw [ht.file, readFile, if_neg (by rw [Nat.mod_eq_of_lt (by omega)]; omega), hsplit,
    append_assoc, ← hpre, drop_append, drop_eq_nil_of_le (Nat.le_add_right _ _),
    nil_append, Nat.add_sub_cancel_left, storedBlock, blockBytes]
  simp only [append_assoc]
  rw [drop_append_of_le_length (by omega), take_append_of_le_length
    (by rw [length_drop]; omega), Pieces.take_drop_uniform hE hm]

theorem decodeEntry_run (hE : ∀ e ∈ c, (encodeEntry e).length = E)
    (hfits : (c.flatMap encodeEntry).length < 2 ^ 32) {i : ℕ} (hm : a + m ≤ c.length)
    (ha : a ≤ i) (hi : i < a + m) {e : Bytes × Bytes} (he : (c)[i]? = some e) :
    ∃ rest, decodeEntry ((((c.drop a).take m).flatMap encodeEntry).drop ((i - a) * E)) =
      some (0, e.1.length, e.2.length, e.1 ++ e.2 ++ rest) := by
  have hE' : ∀ e ∈ (c.drop a).take m, (encodeEntry e).length = E :=
    fun e he => hE e (mem_of_mem_drop (mem_of_mem_take he))
  have hget : ((c.drop a).take m)[i - a]? = some e := by
    rw [List.getElem?_take_of_lt (by omega), List.getElem?_drop, Nat.add_sub_cancel' ha, he]
  have hlen : ((c.drop a).take m).length = m := by
    rw [length_take, length_drop]; omega
  have hdrop := Pieces.drop_offset_getElem (f := encodeEntry) hget
  rw [Pieces.offset_uniform hE' (by omega)] at hdrop
  have hshort : ((((c.drop a).take m).flatMap encodeEntry).drop ((i - a) * E)).length < 2 ^ 32 := by
    have hrun : (((c.drop a).take m).flatMap encodeEntry).length ≤
        (c.flatMap encodeEntry).length := by
      rw [Pieces.length_uniform hE', Pieces.length_uniform hE, hlen]
      exact Nat.mul_le_mul_right E (by omega)
    rw [length_drop]
    omega
  rw [hdrop] at hshort ⊢
  exact ⟨_, decodeEntry_encodeEntry e _ hshort⟩

end IsUniform

/-! ### The recorded geometry -/

/-- The geometry of a table of entries of size `E` whose first block is `c₀`. -/
def geometryOf (R E : ℕ) (c₀ : List (Bytes × Bytes)) : BlockGeometry :=
  ⟨c₀.length, (blockBytes R c₀).length + kBlockTrailerSize, E, true⟩

variable {R E : ℕ} {c₀ : List (Bytes × Bytes)} {g : BlockGeometry}

theorem recordGeometry_uniform (hpos : 0 < c₀.length)
    (hE : ∀ e ∈ c₀, (encodeEntry e).length = E)
    (hg : g.block_num_entries_recorded = false) :
    Table.recordGeometry R g c₀ = geometryOf R E c₀ := by
  rw [Table.recordGeometry, hg, if_neg Bool.false_ne_true, Pieces.length_uniform hE,
    Nat.mul_div_cancel_left _ hpos, geometryOf]

/-- **`fillData` records the geometry that all blocks of the table have**, if none was recorded
before. -/
theorem fillData_uniform {crc : Bytes → UInt32}
    {cs : List (List (Bytes × Bytes))} {t : Table} (h : IsUniform E c₀.length (c₀ :: cs))
    (ht : Table.IsTable crc R (c₀ :: cs) t) (verify : Bool)
    (hkeys : ∀ e ∈ (c₀ :: cs).flatten, 8 ≤ e.1.length) {data : LearnedIndexData}
    (hfilled : data.filled = false)
    (hg : g.block_num_entries_recorded = false) :
    t.fillData crc verify data g =
      some ({ (c₀ :: cs).foldl Table.collect data with filled := true }, geometryOf R E c₀) := by
  rw [Table.fillData_spec ht verify (cons_ne_nil _ _) hkeys hfilled,
    foldl_cons (f := Table.recordGeometry R),
    recordGeometry_uniform h.pos (h.entry_of_mem List.getElem?_cons_zero) hg,
    Table.foldl_recordGeometry cs rfl]

end Bourbon
