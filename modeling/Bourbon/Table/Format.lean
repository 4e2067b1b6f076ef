import Mathlib.Data.List.GetD
import Bourbon.Table.BlockSeek

/-!
# Table format

`table/format.cc`: a block handle is a file range, a footer holds the handles of the metaindex and
the index block, and a block is stored with a trailer of five bytes, its type and a checksum.  The
checksum is a parameter `crc`.  Files are read as by a memory-mapped file, which has no buffer.

* `BlockHandle.decodeFrom_encodeTo`, `Footer.decodeFrom_encodeTo` : handles and footers read back;
* `readBlock_storedBlock` : a stored block is read back, with or without checksum verification.
-/

namespace Bourbon

open List

/-! ### Checksums -/

/-- `kMaskDelta`. -/
def kMaskDelta : UInt32 := 0xa282ead8

/-- `crc32c::Mask`. -/
def crcMask (crc : UInt32) : UInt32 := ((crc >>> 15) ||| (crc <<< 17)) + kMaskDelta

/-- `crc32c::Unmask`. -/
def crcUnmask (masked_crc : UInt32) : UInt32 :=
  let rot := masked_crc - kMaskDelta
  (rot >>> 17) ||| (rot <<< 15)

/-- A checksum that is zero for all bytes. -/
def zeroCrc : Bytes → UInt32 := fun _ => 0

theorem crcUnmask_crcMask (crc : UInt32) : crcUnmask (crcMask crc) = crc := by
  have hc := crc.toNat_lt
  have hlo : crc.toNat % 2 ^ 15 < 2 ^ 15 := Nat.mod_lt _ (by decide)
  have hrot : ((crc >>> 15) ||| (crc <<< 17)).toNat =
      2 ^ 17 * (crc.toNat % 2 ^ 15) + crc.toNat / 2 ^ 15 := by
    have h1 : (crc >>> 15).toNat = crc.toNat / 2 ^ 15 := by
      rw [UInt32.toNat_shiftRight]; exact Nat.shiftRight_eq_div_pow _ _
    have h2 : (crc <<< 17).toNat = 2 ^ 17 * (crc.toNat % 2 ^ 15) := by
      rw [UInt32.toNat_shiftLeft]
      change crc.toNat <<< 17 % 2 ^ 32 = _
      rw [Nat.shiftLeft_eq]
      omega
    rw [UInt32.toNat_or, h1, h2, Nat.or_comm, ← Nat.two_pow_add_eq_or_of_lt (by omega)]
  rw [crcUnmask, crcMask, UInt32.add_sub_cancel]
  apply UInt32.toNat_inj.1
  generalize ((crc >>> 15) ||| (crc <<< 17)) = rot at hrot ⊢
  have h1 : (rot >>> 17).toNat = crc.toNat % 2 ^ 15 := by
    rw [UInt32.toNat_shiftRight]
    change rot.toNat >>> 17 = _
    rw [Nat.shiftRight_eq_div_pow, hrot]
    omega
  have h2 : (rot <<< 15).toNat = 2 ^ 15 * (crc.toNat / 2 ^ 15) := by
    rw [UInt32.toNat_shiftLeft]
    change rot.toNat <<< 15 % 2 ^ 32 = _
    rw [Nat.shiftLeft_eq, hrot]
    omega
  rw [UInt32.toNat_or, h1, h2, Nat.or_comm, ← Nat.two_pow_add_eq_or_of_lt hlo]
  exact Nat.div_add_mod _ _

/-! ### Handles and the footer -/

/-- The extent of a block in a file, without its trailer. -/
structure BlockHandle where
  offset : ℕ
  size : ℕ
  deriving DecidableEq

namespace BlockHandle

/-- `BlockHandle::EncodeTo`. -/
def encodeTo (h : BlockHandle) : Bytes := encodeVarint64 h.offset ++ encodeVarint64 h.size

/-- `BlockHandle::DecodeFrom`; `none` is the status "bad block handle". -/
def decodeFrom (input : Bytes) : Option (BlockHandle × Bytes) := do
  let (offset, input) ← getVarint64Ptr input
  let (size, input) ← getVarint64Ptr input
  some (⟨offset, size⟩, input)

theorem decodeFrom_encodeTo {h : BlockHandle} (ho : h.offset < 2 ^ 64) (hs : h.size < 2 ^ 64)
    (rest : Bytes) : decodeFrom (h.encodeTo ++ rest) = some (h, rest) := by
  rw [decodeFrom, encodeTo, append_assoc, getVarint64Ptr_encodeVarint64 ho]
  simp only [Option.bind_eq_bind, Option.bind_some]
  rw [getVarint64Ptr_encodeVarint64 hs]
  rfl

end BlockHandle

/-- `kMaxEncodedLength` of a block handle. -/
def kMaxEncodedLength : ℕ := 20

/-- `kEncodedLength` of a footer. -/
def kEncodedLength : ℕ := 2 * kMaxEncodedLength + 8

/-- The last eight bytes of a table file. -/
def kTableMagicNumber : ℕ := 0xdb4775248b80fb57

/-- `kBlockTrailerSize`: one byte for the type and four for the checksum. -/
def kBlockTrailerSize : ℕ := 5

/-- `Footer`, at the end of a table file. -/
structure Footer where
  metaindex_handle : BlockHandle
  index_handle : BlockHandle

namespace Footer

/-- `std::string::resize`. -/
def resize (s : Bytes) (n : ℕ) : Bytes := s.take n ++ List.replicate (n - s.length) 0

/-- `Footer::EncodeTo`. -/
def encodeTo (f : Footer) : Bytes :=
  resize (f.metaindex_handle.encodeTo ++ f.index_handle.encodeTo) (2 * kMaxEncodedLength) ++
    encodeFixed32 (kTableMagicNumber % 2 ^ 32) ++ encodeFixed32 (kTableMagicNumber / 2 ^ 32)

/-- `Footer::DecodeFrom`. -/
def decodeFrom (input : Bytes) : Except Status Footer :=
  let magic_ptr := input.drop (kEncodedLength - 8)
  let magic_lo := decodeFixed32 magic_ptr
  let magic_hi := decodeFixed32 (magic_ptr.drop 4)
  let magic := magic_hi * 2 ^ 32 + magic_lo
  if magic ≠ kTableMagicNumber then .error (.corruption "not an sstable (bad magic number)")
  else
    match BlockHandle.decodeFrom input with
    | none => .error (.corruption "bad block handle")
    | some (metaindex_handle, input) =>
      match BlockHandle.decodeFrom input with
      | none => .error (.corruption "bad block handle")
      | some (index_handle, _) => .ok ⟨metaindex_handle, index_handle⟩

end Footer

/-! ### Reading -/

/-- `RandomAccessFile::Read` of a memory-mapped file. -/
def readFile (file : Bytes) (offset n : ℕ) : Except Status Bytes :=
  if (offset + n) % 2 ^ 64 > file.length then .error (.ioError "Invalid argument")
  else .ok ((file.drop offset).take n)

/-- The trailer of an uncompressed block (`kNoCompression`). -/
def blockTrailer (crc : Bytes → UInt32) (block_contents : Bytes) : Bytes :=
  0 :: encodeFixed32 (crcMask (crc (block_contents ++ [0]))).toNat

/-- `ReadBlock` from a file with the function `read`.  Without Snappy, a compressed block is
reported as corrupted. -/
def readBlock (crc : Bytes → UInt32) (verify_checksums : Bool) (read : ℕ → ℕ → Except Status Bytes)
    (handle : BlockHandle) : Except Status Bytes :=
  let n := handle.size
  match read handle.offset ((n + kBlockTrailerSize) % 2 ^ 64) with
  | .error s => .error s
  | .ok contents =>
    if contents.length ≠ (n + kBlockTrailerSize) % 2 ^ 64 then
      .error (.corruption "truncated block read")
    else if verify_checksums && crcUnmask (UInt32.ofNat (decodeFixed32 (contents.drop (n + 1)))) !=
        crc (contents.take (n + 1)) then
      .error (.corruption "block checksum mismatch")
    else
      match (contents.getD n 0).toNat with
      | 0 => .ok (contents.take n)
      | 1 => .error (.corruption "corrupted compressed block contents")
      | _ => .error (.corruption "bad block type")

/-- A block as it stands in the file. -/
def storedBlock (crc : Bytes → UInt32) (contents : Bytes) : Bytes :=
  contents ++ blockTrailer crc contents

theorem length_blockTrailer (crc : Bytes → UInt32) (contents : Bytes) :
    (blockTrailer crc contents).length = kBlockTrailerSize := by
  rw [blockTrailer, length_cons, encodeFixed32, length_encodeFixed]; rfl

theorem length_storedBlock (crc : Bytes → UInt32) (contents : Bytes) :
    (storedBlock crc contents).length = contents.length + kBlockTrailerSize := by
  rw [storedBlock, length_append, length_blockTrailer]

theorem readFile_append (pre part post : Bytes) (h : (pre ++ part ++ post).length < 2 ^ 64) :
    readFile (pre ++ part ++ post) pre.length part.length = .ok part := by
  have hlen : (pre ++ part ++ post).length = pre.length + part.length + post.length := by
    simp only [length_append]
  rw [readFile, if_neg (by rw [Nat.mod_eq_of_lt (by omega)]; omega), append_assoc,
    drop_left, take_left]

/-- **A stored block is read back**, whatever stands around it. -/
theorem readBlock_storedBlock (crc : Bytes → UInt32) (verify : Bool) (pre contents post : Bytes)
    (h : (pre ++ storedBlock crc contents ++ post).length < 2 ^ 64) :
    readBlock crc verify (readFile (pre ++ storedBlock crc contents ++ post))
      ⟨pre.length, contents.length⟩ = .ok contents := by
  have hlen := length_storedBlock crc contents
  have hn : (contents.length + kBlockTrailerSize) % 2 ^ 64 = (storedBlock crc contents).length := by
    rw [← hlen]
    simp only [length_append] at h
    exact Nat.mod_eq_of_lt (by omega)
  have hcrc : crcUnmask (UInt32.ofNat (decodeFixed32
      ((storedBlock crc contents).drop (contents.length + 1)))) =
      crc ((storedBlock crc contents).take (contents.length + 1)) := by
    have hsplit : storedBlock crc contents = (contents ++ [0]) ++
        (encodeFixed32 (crcMask (crc (contents ++ [0]))).toNat ++ []) := by
      rw [storedBlock, blockTrailer, append_nil, append_assoc, singleton_append]
    have hl : (contents ++ [0]).length = contents.length + 1 := by
      rw [length_append, length_singleton]
    rw [hsplit, drop_left' hl, take_left' hl,
      decodeFixed32_encodeFixed32 (crcMask _).toNat_lt, UInt32.ofNat_toNat, crcUnmask_crcMask]
  have htype : ((storedBlock crc contents).getD contents.length 0).toNat = 0 := by
    rw [storedBlock, blockTrailer, getD_append_right _ _ _ _ le_rfl, Nat.sub_self]
    rfl
  rw [readBlock]
  simp only
  rw [hn, readFile_append pre _ post h]
  simp only [ne_eq, not_true_eq_false, if_false, hcrc, bne_self_eq_false, Bool.and_false,
    Bool.false_eq_true, htype]
  rw [storedBlock, take_left]

/-! ### Footers read back -/

theorem length_encodeVarintLoop_le (n v : ℕ) : (encodeVarintLoop n v).length ≤ n := by
  induction n generalizing v with
  | zero => exact le_rfl
  | succ n ih =>
    rw [encodeVarintLoop]
    split_ifs
    · rw [length_cons]; exact Nat.succ_le_succ (ih _)
    · exact Nat.succ_le_succ (Nat.zero_le n)

theorem BlockHandle.length_encodeTo_le (h : BlockHandle) :
    h.encodeTo.length ≤ kMaxEncodedLength := by
  have h1 := length_encodeVarintLoop_le 10 h.offset
  have h2 := length_encodeVarintLoop_le 10 h.size
  rw [encodeTo, length_append, encodeVarint64, encodeVarint64, kMaxEncodedLength]
  omega

namespace Footer

theorem resize_eq {s : Bytes} {n : ℕ} (h : s.length ≤ n) :
    resize s n = s ++ List.replicate (n - s.length) 0 := by
  rw [resize, take_of_length_le h]

theorem length_resize (s : Bytes) (n : ℕ) : (resize s n).length = n := by
  rw [resize, length_append, length_take, length_replicate]
  omega

theorem length_encodeTo (f : Footer) : f.encodeTo.length = kEncodedLength := by
  rw [encodeTo, length_append, length_append, length_resize, encodeFixed32, encodeFixed32,
    length_encodeFixed, length_encodeFixed]
  rfl

/-- **A footer reads back.** -/
theorem decodeFrom_encodeTo {f : Footer} (hmo : f.metaindex_handle.offset < 2 ^ 64)
    (hms : f.metaindex_handle.size < 2 ^ 64) (hio : f.index_handle.offset < 2 ^ 64)
    (his : f.index_handle.size < 2 ^ 64) : decodeFrom f.encodeTo = .ok f := by
  have hlen : (f.metaindex_handle.encodeTo ++ f.index_handle.encodeTo).length ≤
      2 * kMaxEncodedLength := by
    have h1 := f.metaindex_handle.length_encodeTo_le
    have h2 := f.index_handle.length_encodeTo_le
    rw [length_append]
    omega
  have hmagic : f.encodeTo.drop (kEncodedLength - 8) =
      encodeFixed32 (kTableMagicNumber % 2 ^ 32) ++
        (encodeFixed32 (kTableMagicNumber / 2 ^ 32) ++ []) := by
    have h40 : kEncodedLength - 8 = 2 * kMaxEncodedLength := rfl
    rw [encodeTo, append_assoc, h40, drop_left' (length_resize _ _), append_nil]
  have hhi : (encodeFixed32 (kTableMagicNumber % 2 ^ 32) ++
      (encodeFixed32 (kTableMagicNumber / 2 ^ 32) ++ [])).drop 4 =
      encodeFixed32 (kTableMagicNumber / 2 ^ 32) ++ [] := drop_left' (length_encodeFixed 4 _)
  rw [decodeFrom, hmagic, hhi, decodeFixed32_encodeFixed32 (by decide),
    decodeFixed32_encodeFixed32 (by decide), if_neg (by decide), encodeTo, resize_eq hlen]
  simp only [append_assoc]
  rw [BlockHandle.decodeFrom_encodeTo hmo hms]
  simp only
  rw [BlockHandle.decodeFrom_encodeTo hio his]

end Footer

end Bourbon
