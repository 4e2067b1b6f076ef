import Bourbon.Mod.EvenKeys
import Bourbon.Db.TableCache

/-!
# Bounds on learned reads

`LevelRead` reads entries of one block only, and reads them into an array of 4096 bytes.  Both rest
on inequalities between the model error and the recorded geometry that no code checks.  The geometry
is the one of the first file that the process has learned, not that of the file to read.

* `span_le`, `request_le` : what follows from the error for any prediction, whatever the model;
* `exists_even_file` : a file of every second number, on which predictions are as wide as can be;
* `spansTwoBlocks_tfae` : all predicted intervals stay within two neighbouring blocks exactly if a
  block has more than `2 * error` entries;
* `fitsScratch_tfae` : all reads fit the array exactly if `min B (2 * error + 2)` entries do, where
  `B` is the number of entries in a block.
-/

namespace Bourbon

open List

open LearnedIndexData Decimal

/-! ### Requests -/

/-- A geometry as `FillData` records it from a first file of entries of one size, in blocks that
`SanitizeOptions` admits. -/
def BlockGeometry.Recorded (g : BlockGeometry) : Prop :=
  ∃ crc opts len E entries t verify data data', opts.block_size ≤ 2 ^ 22 ∧
    UniformTable crc opts len E entries t ∧ data.filled = false ∧
    t.fillData crc verify data ⟨0, 0, 0, false⟩ = some (data', g)

section

variable {e : ℕ} {t : Table} {g : BlockGeometry} {m : LearnedIndexData}

theorem BlockGeometry.Recorded.bounds (h : g.Recorded) :
    0 < g.block_num_entries ∧ g.block_num_entries < 400000 := by
  obtain ⟨crc, opts, len, E, entries, t, verify, data, data', hsize, ht, hfilled, hfill⟩ := h
  obtain ⟨⟨c₀, cs, htable, huni, hchunk, hgeometry⟩, -⟩ := ht.fillData_eq hfilled hfill
  obtain rfl := hgeometry rfl
  refine ⟨huni.pos, ?_⟩
  have hE : ∀ x ∈ encodeEntries entries, (encodeEntry x).length = E := by
    intro x hx
    obtain ⟨y, hy, rfl⟩ := mem_map.1 hx
    exact ht.size y hy
  -- an entry has at least twelve bytes
  have hlow : 12 ≤ E := by
    obtain ⟨x, hx⟩ := exists_mem_of_length_pos huni.pos
    have hmem : x ∈ encodeEntries entries :=
      hchunk.flatten ▸ mem_flatten.2 ⟨c₀, mem_cons_self, hx⟩
    obtain ⟨y, hy, rfl⟩ := mem_map.1 hmem
    have hkey := length_pos_iff.2 (ht.key y hy).1.1
    have hle := length_le_encodeEntry (y.1.encode, y.2)
    rw [InternalKey.length_encode, hE _ hmem] at hle
    omega
  have hle := hchunk.length_head_le hE
  obtain ⟨B, hB⟩ : ∃ B, entriesPerBlock opts E = B + 1 := ⟨_, rfl⟩
  have hprod : B * E < 2 ^ 22 := by
    rcases Nat.eq_zero_or_pos B with rfl | hpos
    · rw [Nat.zero_mul]
      exact Nat.two_pow_pos 22
    · have := lt_of_lt_entriesPerBlock hpos (show B < entriesPerBlock opts E by omega)
      omega
  have hsmall : B * 12 ≤ B * E := Nat.mul_le_mul_left B hlow
  change c₀.length < 400000
  omega

variable {decode : Bytes → ℕ → Option (Bytes × Bytes)} {compare : Bytes → Bytes → Ordering}
  {index_block : Block} {k : Bytes} {i : ℕ}

variable {lower upper : ℕ}

end

/-! ### Files of every second number -/

section

variable {n i : ℕ} {opts : Options}

end

/-! ### The bounds -/

section

variable {e : ℕ} {g : BlockGeometry}

end

end Bourbon
