import Mathlib.Data.Nat.Bitwise
import Mathlib.Tactic.Ring
import Bourbon.Lib.Reader
import Bourbon.Util.Slice

/-!
# Integer encodings

`util/coding.cc`: fixed-width little-endian integers, varints and strings behind their length.  A
pointer range `[p, limit)` is the list of its bytes; a reader returns the value and the bytes behind
it.

* `decodeFixed_encodeFixed` : fixed-width integers read back;
* `varintLoop_encode` : the reading loop inverts the writing loop in front of any bytes, with
  `getVarint32Ptr_encodeVarint32` and `getVarint64Ptr_encodeVarint64` as its two cases.
-/

namespace Bourbon

open List

/-! ### Fixed-width integers -/

/-- The low `n` bytes of a number, least significant first. -/
def encodeFixed : ℕ → ℕ → Bytes
  | 0, _ => []
  | n + 1, v => UInt8.ofNat v :: encodeFixed n (v / 256)

/-- `EncodeFixed32`. -/
def encodeFixed32 (value : ℕ) : Bytes := encodeFixed 4 value

/-- `EncodeFixed64`. -/
def encodeFixed64 (value : ℕ) : Bytes := encodeFixed 8 value

/-- The number in the first `n` bytes. -/
def decodeFixed : ℕ → Bytes → ℕ
  | 0, _ => 0
  | _ + 1, [] => 0
  | n + 1, b :: bs => b.toNat + 256 * decodeFixed n bs

/-- `DecodeFixed32`. -/
def decodeFixed32 (ptr : Bytes) : ℕ := decodeFixed 4 ptr

/-- `DecodeFixed64`. -/
def decodeFixed64 (ptr : Bytes) : ℕ := decodeFixed 8 ptr

@[simp] theorem length_encodeFixed (n v : ℕ) : (encodeFixed n v).length = n := by
  induction n generalizing v with
  | zero => rfl
  | succ n ih => rw [encodeFixed, length_cons, ih]

variable {n v : ℕ}

/-- **Fixed-width integers read back**, whatever follows them. -/
theorem decodeFixed_encodeFixed (h : v < 256 ^ n) (rest : Bytes) :
    decodeFixed n (encodeFixed n v ++ rest) = v := by
  induction n generalizing v with
  | zero => simp only [pow_zero, Nat.lt_one_iff] at h; rw [h]; rfl
  | succ n ih =>
    have hv : v / 256 < 256 ^ n := by
      rw [Nat.div_lt_iff_lt_mul (by decide)]; rwa [pow_succ] at h
    rw [encodeFixed, cons_append, decodeFixed, ih hv, UInt8.toNat_ofNat']
    omega

/-! ### Varints -/

/-- The loop of `EncodeVarint64`: seven bits a byte, all bytes but the last marked. -/
def encodeVarintLoop : ℕ → ℕ → Bytes
  | 0, _ => []
  | n + 1, v => if v ≥ 128 then UInt8.ofNat (v ||| 128) :: encodeVarintLoop n (v >>> 7)
      else [UInt8.ofNat v]

/-- `EncodeVarint64`, which writes at most ten bytes. -/
def encodeVarint64 (v : ℕ) : Bytes := encodeVarintLoop 10 v

/-- `EncodeVarint32`. -/
def encodeVarint32 (v : ℕ) : Bytes :=
  let B := 128
  if v < 1 <<< 7 then [UInt8.ofNat v]
  else if v < 1 <<< 14 then [UInt8.ofNat (v ||| B), UInt8.ofNat (v >>> 7)]
  else if v < 1 <<< 21 then
    [UInt8.ofNat (v ||| B), UInt8.ofNat (v >>> 7 ||| B), UInt8.ofNat (v >>> 14)]
  else if v < 1 <<< 28 then
    [UInt8.ofNat (v ||| B), UInt8.ofNat (v >>> 7 ||| B), UInt8.ofNat (v >>> 14 ||| B),
      UInt8.ofNat (v >>> 21)]
  else
    [UInt8.ofNat (v ||| B), UInt8.ofNat (v >>> 7 ||| B), UInt8.ofNat (v >>> 14 ||| B),
      UInt8.ofNat (v >>> 21 ||| B), UInt8.ofNat (v >>> 28)]

/-- The loop that reads a varint into a `w`-bit `result`, for at most `n` more bytes. -/
def varintLoop (w : ℕ) : ℕ → ℕ → ℕ → Bytes → Option (ℕ × Bytes)
  | 0, _, _, _ => none
  | _ + 1, _, _, [] => none
  | n + 1, shift, result, b :: p =>
    if b.toNat &&& 128 ≠ 0 then
      varintLoop w n (shift + 7) (result ||| ((b.toNat &&& 127) <<< shift) % 2 ^ w) p
    else some (result ||| (b.toNat <<< shift) % 2 ^ w, p)

/-- `GetVarint32PtrFallback`. -/
def getVarint32PtrFallback (p : Bytes) : Option (ℕ × Bytes) := varintLoop 32 5 0 0 p

/-- `GetVarint32Ptr`. -/
def getVarint32Ptr (p : Bytes) : Option (ℕ × Bytes) :=
  match p with
  | b :: q => if b.toNat &&& 128 = 0 then some (b.toNat, q) else getVarint32PtrFallback p
  | [] => getVarint32PtrFallback p

/-- `GetVarint64Ptr`. -/
def getVarint64Ptr (p : Bytes) : Option (ℕ × Bytes) := varintLoop 64 10 0 0 p

/-- The fast path reads what the loop would. -/
theorem getVarint32Ptr_eq_loop (p : Bytes) : getVarint32Ptr p = varintLoop 32 5 0 0 p := by
  cases p with
  | nil => rfl
  | cons b p =>
    rw [getVarint32Ptr]
    split_ifs with hb
    · rw [varintLoop, if_neg (not_not.2 hb), Nat.zero_or, Nat.shiftLeft_zero,
        Nat.mod_eq_of_lt (b.toNat_lt.trans (by decide))]
    · rfl

theorem and_low_seven : ∀ b < 256, b &&& 127 = b % 128 := by decide +kernel

theorem and_high_bit : ∀ b < 256, b &&& 128 = b / 128 * 128 := by decide +kernel

theorem or_high_bit_of_lt : ∀ b < 256, b ||| 128 = b % 128 + 128 := by decide +kernel

theorem ofNat_or_high_bit (v : ℕ) : (UInt8.ofNat (v ||| 128)).toNat = v % 128 + 128 := by
  rw [UInt8.toNat_ofNat', Nat.or_mod_two_pow, show 128 % 2 ^ 8 = 128 by decide,
    or_high_bit_of_lt _ (Nat.mod_lt _ (by decide))]
  omega

theorem encodeVarintLoop_of_lt (h : v < 128) :
    encodeVarintLoop (n + 1) v = [UInt8.ofNat v] := by
  rw [encodeVarintLoop, if_neg (by omega)]

theorem encodeVarintLoop_of_ge (h : 128 ≤ v) :
    encodeVarintLoop (n + 1) v = UInt8.ofNat (v ||| 128) :: encodeVarintLoop n (v >>> 7) := by
  rw [encodeVarintLoop, if_pos h]

/-- The case split of `EncodeVarint32` unrolls the loop of `EncodeVarint64`. -/
theorem encodeVarint32_eq (h : v < 2 ^ 32) : encodeVarint32 v = encodeVarint64 v := by
  have h7 : v >>> 7 = v / 128 := Nat.shiftRight_eq_div_pow v 7
  have h14 : v >>> 7 >>> 7 = v / 16384 := by
    rw [← Nat.shiftRight_add, Nat.shiftRight_eq_div_pow]
  have h21 : v >>> 7 >>> 7 >>> 7 = v / 2097152 := by
    rw [← Nat.shiftRight_add, ← Nat.shiftRight_add, Nat.shiftRight_eq_div_pow]
  have h28 : v >>> 7 >>> 7 >>> 7 >>> 7 = v / 268435456 := by
    rw [← Nat.shiftRight_add, ← Nat.shiftRight_add, ← Nat.shiftRight_add,
      Nat.shiftRight_eq_div_pow]
  simp only [encodeVarint32, encodeVarint64, Nat.one_shiftLeft, Nat.reducePow]
  split_ifs with c7 c14 c21 c28
  · rw [encodeVarintLoop_of_lt c7]
  · rw [encodeVarintLoop_of_ge (by omega), encodeVarintLoop_of_lt (by omega)]
  · rw [encodeVarintLoop_of_ge (by omega), encodeVarintLoop_of_ge (by omega),
      encodeVarintLoop_of_lt (by omega), ← Nat.shiftRight_add]
  · rw [encodeVarintLoop_of_ge (by omega), encodeVarintLoop_of_ge (by omega),
      encodeVarintLoop_of_ge (by omega), encodeVarintLoop_of_lt (by omega), ← Nat.shiftRight_add,
      ← Nat.shiftRight_add]
  · rw [encodeVarintLoop_of_ge (by omega), encodeVarintLoop_of_ge (by omega),
      encodeVarintLoop_of_ge (by omega), encodeVarintLoop_of_ge (by omega),
      encodeVarintLoop_of_lt (by omega), ← Nat.shiftRight_add, ← Nat.shiftRight_add,
      ← Nat.shiftRight_add]

variable {w shift result : ℕ}

theorem or_payload {d : ℕ} (hr : result < 2 ^ shift) (hd : d * 2 ^ shift < 2 ^ w) :
    result ||| (d <<< shift) % 2 ^ w = result + d * 2 ^ shift := by
  rw [Nat.shiftLeft_eq, Nat.mod_eq_of_lt hd, Nat.or_comm, Nat.mul_comm d,
    ← Nat.two_pow_add_eq_or_of_lt hr, Nat.add_comm]

/-- **The reading loop inverts the writing loop**: the bits read so far lie below `shift`. -/
theorem varintLoop_encode (hn : 0 < n) (hv : v < 128 ^ n)
    (hr : result < 2 ^ shift) (hw : v * 2 ^ shift < 2 ^ w) (rest : Bytes) :
    varintLoop w n shift result (encodeVarintLoop n v ++ rest) =
      some (result + v * 2 ^ shift, rest) := by
  induction n generalizing shift result v with
  | zero => exact absurd hn (lt_irrefl 0)
  | succ n ih =>
    rcases lt_or_ge v 128 with hlt | hge
    · have hb : (UInt8.ofNat v).toNat = v := by rw [UInt8.toNat_ofNat']; omega
      rw [encodeVarintLoop_of_lt hlt, singleton_append, varintLoop, hb,
        and_high_bit v (by omega), if_neg (by omega), or_payload hr hw]
    · have hlow : v % 128 * 2 ^ shift < 2 ^ w :=
        (Nat.mul_le_mul_right _ (Nat.mod_le v 128)).trans_lt hw
      have hpos : 0 < n := by
        rcases Nat.eq_zero_or_pos n with rfl | h
        · omega
        · exact h
      have hshift : v >>> 7 = v / 128 := Nat.shiftRight_eq_div_pow v 7
      have hpow : (2 : ℕ) ^ (shift + 7) = 2 ^ shift * 128 := by rw [Nat.pow_add]
      have hsplit : v % 128 * 2 ^ shift + v / 128 * (2 ^ shift * 128) = v * 2 ^ shift := by
        have := Nat.div_add_mod v 128
        calc v % 128 * 2 ^ shift + v / 128 * (2 ^ shift * 128)
            = (128 * (v / 128) + v % 128) * 2 ^ shift := by ring
          _ = v * 2 ^ shift := by rw [this]
      rw [encodeVarintLoop_of_ge hge, cons_append, varintLoop, ofNat_or_high_bit,
        and_high_bit _ (by omega), if_pos (by omega), and_low_seven _ (by omega),
        show (v % 128 + 128) % 128 = v % 128 by omega, or_payload hr hlow, hshift,
        ih hpos ?_ ?_ ?_, hpow, Nat.add_assoc, hsplit]
      · rw [Nat.div_lt_iff_lt_mul (by decide)]; rwa [pow_succ] at hv
      · have := Nat.mul_le_mul_right (2 ^ shift) (show v % 128 + 1 ≤ 128 by omega)
        rw [Nat.add_mul, Nat.one_mul] at this
        rw [hpow]; omega
      · rw [hpow]; omega

/-- **A 64-bit varint reads back** in front of any bytes. -/
theorem getVarint64Ptr_encodeVarint64 (h : v < 2 ^ 64) (rest : Bytes) :
    getVarint64Ptr (encodeVarint64 v ++ rest) = some (v, rest) := by
  have : varintLoop 64 10 0 0 (encodeVarintLoop 10 v ++ rest) = some (0 + v * 2 ^ 0, rest) :=
    varintLoop_encode (by decide) (h.trans_le (by decide)) (by decide) (by simpa using h) rest
  simpa [getVarint64Ptr, encodeVarint64] using this

theorem encodeVarintLoop_fuel {k : ℕ} (hv : v < 128 ^ n) (hn : 0 < n) :
    encodeVarintLoop (n + k) v = encodeVarintLoop n v := by
  induction n generalizing v with
  | zero => exact absurd hn (lt_irrefl 0)
  | succ n ih =>
    rw [Nat.add_right_comm]
    rcases lt_or_ge v 128 with hlt | hge
    · rw [encodeVarintLoop_of_lt hlt, encodeVarintLoop_of_lt hlt]
    · have hv' : v >>> 7 < 128 ^ n := by
        rw [Nat.shiftRight_eq_div_pow, Nat.div_lt_iff_lt_mul (by decide)]
        rwa [pow_succ] at hv
      rcases Nat.eq_zero_or_pos n with rfl | hpos
      · simp only [zero_add, pow_one] at hv; omega
      · rw [encodeVarintLoop_of_ge hge, encodeVarintLoop_of_ge hge, ih hv' hpos]

/-- **A 32-bit varint reads back** in front of any bytes. -/
theorem getVarint32Ptr_encodeVarint32 (h : v < 2 ^ 32) (rest : Bytes) :
    getVarint32Ptr (encodeVarint32 v ++ rest) = some (v, rest) := by
  have h5 : encodeVarint32 v = encodeVarintLoop 5 v := by
    rw [encodeVarint32_eq h, encodeVarint64]
    exact encodeVarintLoop_fuel (n := 5) (k := 5) (h.trans_le (by decide)) (by decide)
  have hloop : varintLoop 32 5 0 0 (encodeVarintLoop 5 v ++ rest) = some (0 + v * 2 ^ 0, rest) :=
    varintLoop_encode (by decide) (h.trans_le (by decide)) (by decide) (by simpa using h) rest
  rw [getVarint32Ptr_eq_loop, h5]
  simpa using hloop

/-! ### What the readers take -/

theorem varintLoop_local : Reader.Local (varintLoop w n shift result) := by
  intro p v rest h
  induction n generalizing shift result p with
  | zero => cases h
  | succ n ih =>
    cases p with
    | nil => cases h
    | cons b p =>
      rw [varintLoop] at h
      split_ifs at h with hb
      · obtain ⟨bs, -, rfl, hbs⟩ := ih h
        refine ⟨b :: bs, cons_ne_nil b bs, rfl, fun q => ?_⟩
        rw [cons_append, varintLoop, if_pos hb, hbs]
      · cases h
        refine ⟨[b], cons_ne_nil b [], rfl, fun q => ?_⟩
        rw [singleton_append, varintLoop, if_neg hb]

theorem local_getVarint64Ptr : Reader.Local getVarint64Ptr := varintLoop_local

theorem local_getVarint32Ptr : Reader.Local getVarint32Ptr := by
  rw [funext getVarint32Ptr_eq_loop]
  exact varintLoop_local

variable {p rest : Bytes}

theorem varintLoop_lt (n shift result : ℕ)
    (hresult : result < 2 ^ w)
    (h : varintLoop w n shift result p = some (v, rest)) : v < 2 ^ w := by
  induction n generalizing shift result p with
  | zero => cases p <;> cases h
  | succ n ih =>
    cases p with
    | nil => cases h
    | cons b p =>
      rw [varintLoop] at h
      split_ifs at h with hb
      · exact ih _ _ (Nat.or_lt_two_pow hresult (Nat.mod_lt _ (Nat.two_pow_pos w))) h
      · cases h
        exact Nat.or_lt_two_pow hresult (Nat.mod_lt _ (Nat.two_pow_pos w))

theorem getVarint32Ptr_lt (h : getVarint32Ptr p = some (v, rest)) :
    v < 2 ^ 32 := by
  rw [getVarint32Ptr_eq_loop] at h
  exact varintLoop_lt 5 0 0 (by decide) h

theorem length_varintLoop_le
    (h : varintLoop w n shift result p = some (v, rest)) : p.length ≤ rest.length + n := by
  induction n generalizing shift result p with
  | zero => cases p <;> cases h
  | succ n ih =>
    cases p with
    | nil => cases h
    | cons b p =>
      rw [varintLoop] at h
      rw [length_cons]
      split_ifs at h with hb
      · have := ih h
        omega
      · cases h
        omega

theorem length_getVarint32Ptr_le
    (h : getVarint32Ptr p = some (v, rest)) : p.length ≤ rest.length + 5 := by
  rw [getVarint32Ptr_eq_loop] at h
  exact length_varintLoop_le h

/-! ### Length-prefixed strings -/

/-- A string of 4 GiB. -/
def longValue : Bytes := List.replicate (2 ^ 32) 0

/-- `PutLengthPrefixedSlice`: what it appends. -/
def putLengthPrefixedSlice (value : Bytes) : Bytes :=
  encodeVarint32 (value.length % 2 ^ 32) ++ value

/-- `GetLengthPrefixedSlice`: the string and the input behind it. -/
def getLengthPrefixedSlice (input : Bytes) : Option (Bytes × Bytes) :=
  match getVarint32Ptr input with
  | none => none
  | some (len, input) => if len ≤ input.length then some (input.take len, input.drop len) else none

variable {value : Bytes}

theorem reads_getLengthPrefixedSlice {b : Bytes}
    (h : Reader.Reads getVarint32Ptr value.length b) :
    Reader.Reads getLengthPrefixedSlice value (b ++ value) := by
  intro rest
  rw [getLengthPrefixedSlice, append_assoc, h]
  dsimp only
  rw [if_pos (by rw [length_append]; omega), take_left, drop_left]

theorem local_getLengthPrefixedSlice : Reader.Local getLengthPrefixedSlice := by
  intro p value rest h
  rw [getLengthPrefixedSlice] at h
  split at h
  · cases h
  · rename_i len input hlen
    split_ifs at h with hle
    cases h
    obtain ⟨b, hne, rfl, hb⟩ := local_getVarint32Ptr hlen
    refine ⟨b ++ input.take len, append_ne_nil_of_left_ne_nil hne _, ?_, ?_⟩
    · rw [append_assoc, take_append_drop]
    · refine reads_getLengthPrefixedSlice ?_
      rwa [length_take, min_eq_left hle]

/-- **A length-prefixed string reads back** in front of any bytes. -/
theorem getLengthPrefixedSlice_putLengthPrefixedSlice
    (h : value.length < 2 ^ 32) (rest : Bytes) :
    getLengthPrefixedSlice (putLengthPrefixedSlice value ++ rest) = some (value, rest) := by
  rw [putLengthPrefixedSlice, Nat.mod_eq_of_lt h]
  exact reads_getLengthPrefixedSlice (getVarint32Ptr_encodeVarint32 h) rest

end Bourbon
