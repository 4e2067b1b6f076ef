import Bourbon.Util.Coding

/-!
# Readers on the memory

The readers of `util/coding.cc` with pointers.  The memory holds the bytes from `p` up to `limit`
and nothing else: a read of any other address is a fault, and then the result is `none`.

* `window` : memory in which only a string can be read;
* `Codec` : what a pair of a writer and a reader has to satisfy;
* `varint_codec` : varints of both sizes and length-prefixed strings are codecs.
-/

namespace Bourbon

/-- Memory in which only the bytes of a string can be read. -/
def window (base : ℕ) (bytes : Bytes) (address : ℕ) : Option UInt8 :=
  if address < base then none else bytes[address - base]?

namespace Pointer

variable (mem : ℕ → Option UInt8)

/-- The loop of `GetVarint32PtrFallback` and `GetVarint64Ptr`, for at most `n` more bytes: a fault,
or the value and the pointer behind it, if there is a value. -/
def varintLoop (w limit : ℕ) : ℕ → ℕ → ℕ → ℕ → Option (Option (ℕ × ℕ))
  | 0, _, _, _ => some none
  | n + 1, shift, result, p =>
    if p < limit then
      match mem p with
      | none => none
      | some byte =>
        if byte.toNat &&& 128 ≠ 0 then
          varintLoop w limit n (shift + 7)
            (result ||| ((byte.toNat &&& 127) <<< shift) % 2 ^ w) (p + 1)
        else some (some (result ||| (byte.toNat <<< shift) % 2 ^ w, p + 1))
    else some none

/-- `GetVarint32PtrFallback`. -/
def getVarint32PtrFallback (p limit : ℕ) : Option (Option (ℕ × ℕ)) :=
  varintLoop mem 32 limit 5 0 0 p

/-- `GetVarint32Ptr`. -/
def getVarint32Ptr (p limit : ℕ) : Option (Option (ℕ × ℕ)) :=
  if p < limit then
    match mem p with
    | none => none
    | some byte =>
      if byte.toNat &&& 128 = 0 then some (some (byte.toNat, p + 1))
      else getVarint32PtrFallback mem p limit
  else getVarint32PtrFallback mem p limit

/-- `GetVarint64Ptr`. -/
def getVarint64Ptr (p limit : ℕ) : Option (Option (ℕ × ℕ)) := varintLoop mem 64 limit 10 0 0 p

/-- `GetLengthPrefixedSlice`: the address and the length of the string, and the pointer behind it.
No byte of the string is read. -/
def getLengthPrefixedSlice (p limit : ℕ) : Option (Option ((ℕ × ℕ) × ℕ)) :=
  (getVarint32Ptr mem p limit).map fun r => r.bind fun q =>
    if q.2 + q.1 > limit then none else some ((q.2, q.1), q.2 + q.1)

end Pointer

/-! ### Pointers and bytes -/

section

variable {base : ℕ} {bytes : Bytes}

/-- What a reader of bytes returns, with the pointer instead of the bytes that are left. -/
def located {α : Type*} (base : ℕ) (bytes : Bytes) (r : Option (α × Bytes)) : Option (α × ℕ) :=
  r.map fun q => (q.1, base + (bytes.length - q.2.length))

theorem window_add {k : ℕ} (h : k < bytes.length) :
    window base bytes (base + k) = some bytes[k] := by
  rw [window, if_neg (by omega), Nat.add_sub_cancel_left, List.getElem?_eq_getElem h]

/-- **The loop stays in front of `limit`.** -/
theorem Pointer.varintLoop_window (w n shift result : ℕ) {k : ℕ} (hk : k ≤ bytes.length) :
    varintLoop (window base bytes) w (base + bytes.length) n shift result (base + k) =
      some (located base bytes (Bourbon.varintLoop w n shift result (bytes.drop k))) := by
  induction n generalizing shift result k with
  | zero => rfl
  | succ n ih =>
    rw [varintLoop]
    rcases hk.lt_or_eq with hlt | rfl
    · rw [if_pos (by omega), window_add hlt, List.drop_eq_getElem_cons hlt, Bourbon.varintLoop]
      dsimp only
      split_ifs with hb
      · exact ih _ _ hlt
      · simp only [located, Option.map_some, List.length_drop]
        congr 3
        omega
    · rw [if_neg (lt_irrefl _), List.drop_length]
      rfl

theorem Pointer.getVarint32Ptr_window :
    getVarint32Ptr (window base bytes) base (base + bytes.length) =
      some (located base bytes (Bourbon.getVarint32Ptr bytes)) := by
  have hloop : getVarint32PtrFallback (window base bytes) base (base + bytes.length) =
      some (located base bytes (Bourbon.getVarint32PtrFallback bytes)) :=
    varintLoop_window 32 5 0 0 (Nat.zero_le _)
  rw [getVarint32Ptr]
  cases bytes with
  | nil =>
    rw [if_neg (by simp), hloop]
    rfl
  | cons b rest =>
    have hread : window base (b :: rest) base = some b := by simp [window]
    rw [if_pos (by simp), hread, Bourbon.getVarint32Ptr]
    dsimp only
    split_ifs with hb
    · simp [located]
    · exact hloop

theorem Pointer.getVarint64Ptr_window :
    getVarint64Ptr (window base bytes) base (base + bytes.length) =
      some (located base bytes (Bourbon.getVarint64Ptr bytes)) :=
  varintLoop_window 64 10 0 0 (Nat.zero_le _)

/-- The bytes of the string that `GetLengthPrefixedSlice` returns. -/
def sliceIn (base : ℕ) (bytes : Bytes) (r : (ℕ × ℕ) × ℕ) : Bytes × ℕ :=
  ((bytes.drop (r.1.1 - base)).take r.1.2, r.2)

theorem Pointer.getLengthPrefixedSlice_window :
    (getLengthPrefixedSlice (window base bytes) base (base + bytes.length)).map
        (Option.map (sliceIn base bytes)) =
      some (located base bytes (Bourbon.getLengthPrefixedSlice bytes)) := by
  rw [getLengthPrefixedSlice, getVarint32Ptr_window, Bourbon.getLengthPrefixedSlice]
  cases hlen : Bourbon.getVarint32Ptr bytes with
  | none => rfl
  | some q =>
    obtain ⟨len, rest⟩ := q
    obtain ⟨b, -, rfl, -⟩ := local_getVarint32Ptr hlen
    have hb : (b ++ rest).length - rest.length = b.length := by simp
    simp only [located, Option.map_some, Option.bind_some, hb]
    by_cases hle : len ≤ rest.length
    · rw [if_neg (by simp only [List.length_append]; omega), if_pos hle]
      simp only [Option.map_some, sliceIn, Nat.add_sub_cancel_left, List.drop_left,
        List.length_drop, List.length_append]
      congr 3
      omega
    · rw [if_pos (by simp only [List.length_append]; omega), if_neg hle]
      rfl

end

/-! ### Codecs -/

/-- A writer and a reader of `α`.  The reader gets its bytes at an address, with nothing readable
around them. -/
structure Codec {α : Type*} (valid : α → Prop) (encode : α → Bytes) (most : α → ℕ)
    (read : ℕ → Bytes → Option (Option (α × ℕ))) : Prop where
  round_trip : ∀ base v, valid v → ∀ suffix,
    read base (encode v ++ suffix) = some (some (v, base + (encode v).length))
  cut : ∀ base v, valid v → ∀ part, part <+: encode v → part ≠ encode v →
    read base part = some none
  /-- No fault, and what is read lies between the pointer and `limit`. -/
  inside : ∀ base bytes, ∃ result, read base bytes = some result ∧
    ∀ v q, result = some (v, q) → base < q ∧ q ≤ base + bytes.length ∧ q ≤ base + most v

theorem codec_of_local {α : Type*} {valid : α → Prop} {encode : α → Bytes} {most : α → ℕ}
    {read : ℕ → Bytes → Option (Option (α × ℕ))} {r : Bytes → Option (α × Bytes)}
    (hread : ∀ base bytes, read base bytes = some (located base bytes (r bytes)))
    (hlocal : Reader.Local r) (hencode : ∀ v, valid v → Reader.Reads r v (encode v))
    (hmost : ∀ {p v rest}, r p = some (v, rest) → p.length ≤ rest.length + most v) :
    Codec valid encode most read where
  round_trip base v hv suffix := by
    simp [hread, hencode v hv suffix, located]
  cut base v hv part hpart hne := by
    rw [hread, hlocal.eq_none (hencode v hv) hpart hne]
    rfl
  inside base bytes := by
    refine ⟨_, hread base bytes, fun v q hq => ?_⟩
    obtain ⟨⟨v', rest⟩, hr, heq⟩ := Option.map_eq_some_iff.1 hq
    obtain ⟨rfl, rfl⟩ := Prod.mk.inj heq
    have hlt := hlocal.length_lt hr
    have hle := hmost hr
    dsimp only at *
    omega

theorem length_getLengthPrefixedSlice_le {p value rest : Bytes}
    (h : getLengthPrefixedSlice p = some (value, rest)) :
    p.length ≤ rest.length + (5 + value.length) := by
  rw [getLengthPrefixedSlice] at h
  split at h
  · cases h
  · rename_i len input hlen
    split_ifs at h with hle
    cases h
    have := length_getVarint32Ptr_le hlen
    rw [List.length_drop, List.length_take]
    omega

/-- **Varints and length-prefixed strings are codecs**: what is written is read back in front of any
suffix, nothing is read from a part of it, and no reader leaves its bytes or takes more than five
(ten) of them for a varint. -/
theorem varint_codec :
    Codec (· < 2 ^ 32) encodeVarint32 (fun _ => 5) (fun base bytes =>
      Pointer.getVarint32Ptr (window base bytes) base (base + bytes.length)) ∧
    Codec (· < 2 ^ 64) encodeVarint64 (fun _ => 10) (fun base bytes =>
      Pointer.getVarint64Ptr (window base bytes) base (base + bytes.length)) ∧
    Codec (·.length < 2 ^ 32) putLengthPrefixedSlice (5 + ·.length) (fun base bytes =>
      (Pointer.getLengthPrefixedSlice (window base bytes) base (base + bytes.length)).map
        (Option.map (sliceIn base bytes))) :=
  ⟨codec_of_local (fun _ _ => Pointer.getVarint32Ptr_window) local_getVarint32Ptr
      (fun _ => getVarint32Ptr_encodeVarint32) length_getVarint32Ptr_le,
    codec_of_local (fun _ _ => Pointer.getVarint64Ptr_window) local_getVarint64Ptr
      (fun _ => getVarint64Ptr_encodeVarint64) length_varintLoop_le,
    codec_of_local (fun _ _ => Pointer.getLengthPrefixedSlice_window) local_getLengthPrefixedSlice
      (fun _ => getLengthPrefixedSlice_putLengthPrefixedSlice) length_getLengthPrefixedSlice_le⟩

end Bourbon
