import Mathlib.Data.List.Basic
import Mathlib.Tactic.Ring

/-!
# Concatenated pieces

A file format often is a concatenation of encoded pieces: `l.flatMap f`, with `f` the encoding of
one piece.  `Pieces.offset f l i` is the position at which piece `i` starts; reading from there
gives the encoding of the piece and of all pieces behind it (`drop_offset_getElem`).

`find?_flatten` searches a concatenation in two steps, as an index does: first for the piece by its
last element, then in the piece.  If all pieces but the last have `B` elements, `getElem?_flatten`
finds an element of the concatenation by division by `B`.
-/

namespace Pieces

open List Option

variable {α β : Type*} (f : α → List β)

/-- The position of piece `i`. -/
def offset (l : List α) (i : ℕ) : ℕ := ((l.take i).flatMap f).length

@[simp] theorem offset_zero (l : List α) : offset f l 0 = 0 := by
  rw [offset, take_zero, flatMap_nil, length_nil]

theorem offset_length (l : List α) : offset f l l.length = (l.flatMap f).length := by
  rw [offset, take_length]

theorem drop_offset (l : List α) (i : ℕ) :
    (l.flatMap f).drop (offset f l i) = (l.drop i).flatMap f := by
  have h : l.flatMap f = (l.take i).flatMap f ++ (l.drop i).flatMap f := by
    rw [← flatMap_append, take_append_drop]
  rw [h, offset, drop_left]

variable {f} {l : List α} {a : α} {i j : ℕ}

theorem drop_offset_getElem (h : l[i]? = some a) :
    (l.flatMap f).drop (offset f l i) = f a ++ (l.drop (i + 1)).flatMap f := by
  obtain ⟨hi, rfl⟩ := List.getElem?_eq_some_iff.1 h
  rw [drop_offset, drop_eq_getElem_cons hi, flatMap_cons]

theorem offset_succ (h : l[i]? = some a) : offset f l (i + 1) = offset f l i + (f a).length := by
  rw [offset, take_add_one, h, toList_some, flatMap_append, length_append,
    flatMap_singleton, offset]

theorem offset_append (l l' : List α) (h : i ≤ l.length) :
    offset f (l ++ l') i = offset f l i := by
  rw [offset, take_append_of_le_length h, offset]

theorem offset_mono (l : List α) (h : i ≤ j) : offset f l i ≤ offset f l j := by
  have : l.take i = (l.take j).take i := by rw [take_take, min_eq_left h]
  rw [offset, this]
  have hsplit := congrArg (fun x => (x.flatMap f).length) (take_append_drop i (l.take j))
  simp only [flatMap_append, length_append] at hsplit
  rw [offset]
  omega

theorem offset_le (l : List α) (i : ℕ) : offset f l i ≤ (l.flatMap f).length := by
  rcases le_total i l.length with h | h
  · rw [← offset_length]; exact offset_mono l h
  · rw [offset, take_of_length_le h]

theorem offset_lt (hpos : ∀ a ∈ l, 0 < (f a).length) (hi : i < l.length) (h : i < j) :
    offset f l i < offset f l j := by
  have hs := offset_succ (f := f) (List.getElem?_eq_getElem hi)
  have hp := hpos _ (getElem_mem hi)
  have hm := offset_mono (f := f) l (Nat.succ_le_of_lt h)
  simp only [Nat.succ_eq_add_one] at hm
  omega

theorem offset_uniform {E : ℕ} (hE : ∀ a ∈ l, (f a).length = E) (hi : i ≤ l.length) :
    offset f l i = i * E := by
  induction i with
  | zero => rw [offset_zero, Nat.zero_mul]
  | succ i ih =>
    have hlt : i < l.length := hi
    rw [offset_succ (List.getElem?_eq_getElem hlt), ih hlt.le, hE _ (getElem_mem hlt)]
    ring

theorem length_uniform {E : ℕ} (hE : ∀ a ∈ l, (f a).length = E) :
    (l.flatMap f).length = l.length * E := by
  rw [← offset_length, offset_uniform hE le_rfl]

theorem length_le {b : ℕ} (hb : ∀ a ∈ l, (f a).length ≤ b) :
    (l.flatMap f).length ≤ l.length * b := by
  induction l with
  | nil => exact Nat.zero_le _
  | cons a l ih =>
    have ha := hb a mem_cons_self
    have hl := ih fun x hx => hb x (mem_cons_of_mem a hx)
    rw [flatMap_cons, length_append, length_cons, Nat.add_mul, Nat.one_mul]
    omega

theorem find?_congr {p q : α → Bool} (h : ∀ a ∈ l, p a = q a) : l.find? p = l.find? q := by
  induction l with
  | nil => rfl
  | cons b l ih =>
    rw [List.find?_cons, List.find?_cons, h b mem_cons_self,
      ih fun a ha => h a (mem_cons_of_mem b ha)]

/-- **Searching a concatenation through the last elements of its pieces**, for a predicate that
stays true once it is. -/
theorem find?_flatten {p : α → Bool} (d : α) {cs : List (List α)} (hne : ∀ c ∈ cs, c ≠ [])
    (hp : cs.flatten.Pairwise fun a b => p a = true → p b = true) :
    cs.flatten.find? p = ((List.range cs.length).find? fun j =>
      p ((cs.getD j []).getLastD d)).bind fun j => (cs.getD j []).find? p := by
  induction cs with
  | nil => rfl
  | cons c cs ih =>
    rw [flatten_cons, pairwise_append] at hp
    obtain ⟨hpc, hpcs, -⟩ := hp
    obtain ⟨init, a, rfl⟩ : ∃ init a, c = init ++ [a] :=
      ⟨c.dropLast, c.getLast (hne c (by simp)), (dropLast_append_getLast _).symm⟩
    rw [flatten_cons, List.find?_append, length_cons, range_succ_eq_map,
      List.find?_cons, getD_cons_zero, getLastD_concat]
    cases hpa : p a with
    | true =>
      -- some element of the first piece satisfies the predicate
      obtain ⟨b, hb⟩ := isSome_iff_exists.1
        (List.find?_isSome.2 ⟨a, mem_append_right init (mem_singleton_self a), hpa⟩)
      simp only [bind_some, getD_cons_zero, hb, some_or]
    | false =>
      have hnone : (init ++ [a]).find? p = none := by
        refine List.find?_eq_none.2 fun b hb => ?_
        rcases mem_append.1 hb with hb | hb
        · intro hpb
          rw [(pairwise_append.1 hpc).2.2 b hb a (mem_singleton_self a) hpb] at hpa
          cases hpa
        · rw [mem_singleton.1 hb, hpa]; decide
      rw [hnone, none_or, ih (fun c' hc' => hne c' (by simp [hc'])) hpcs, List.find?_map]
      simp only [bind_map, Function.comp_def, Nat.succ_eq_add_one, getD_cons_succ]

theorem getElem?_flatMap (h : l[i]? = some a) (hj : j < (f a).length) :
    (l.flatMap f)[offset f l i + j]? = (f a)[j]? := by
  rw [← List.getElem?_drop, drop_offset_getElem h, List.getElem?_append_left hj]

/-- **Searching a concatenation**, if the search ends in piece `j` or right behind it: no element
of an earlier piece satisfies the predicate, and all elements of later ones do. -/
theorem findIdx_flatMap {p : β → Bool}
    (hbefore : ∀ a ∈ l.take j, ∀ b ∈ f a, p b = false)
    (hbehind : ∀ a ∈ l.drop (j + 1), ∀ b ∈ f a, p b = true) :
    (l.flatMap f).findIdx p = offset f l j + (l[j]?.elim 0 fun a => (f a).findIdx p) := by
  have hfirst : ((l.take j).flatMap f).findIdx p = ((l.take j).flatMap f).length := by
    refine findIdx_eq_length.2 fun b hb => ?_
    obtain ⟨a, ha, hb⟩ := mem_flatMap.1 hb
    exact hbefore a ha b hb
  have hrest : ((l.drop (j + 1)).flatMap f).findIdx p = 0 := by
    cases hl : (l.drop (j + 1)).flatMap f with
    | nil => rfl
    | cons b bs =>
      obtain ⟨a, ha, hb⟩ := mem_flatMap.1 (hl ▸ mem_cons_self : b ∈ _)
      rw [findIdx_cons, hbehind a ha b hb, cond_true]
  have hdrop : ((l.drop j).flatMap f).findIdx p = l[j]?.elim 0 fun a => (f a).findIdx p := by
    rcases lt_or_ge j l.length with hj | hj
    · rw [drop_eq_getElem_cons hj, List.getElem?_eq_getElem hj, flatMap_cons,
        findIdx_append, hrest]
      split_ifs with hlt
      · rfl
      · have := (findIdx_le_length : (f l[j]).findIdx p ≤ (f l[j]).length)
        simp only [elim_some]
        omega
    · rw [drop_eq_nil_of_le hj, List.getElem?_eq_none hj]
      rfl
  conv_lhs => rw [← take_append_drop j l]
  rw [flatMap_append, findIdx_append, hfirst, if_neg (lt_irrefl _), hdrop, offset,
    Nat.add_comm]

/-- **The element at a position, by division**, if all pieces but the last have `B` elements. -/
theorem getElem?_flatten {B : ℕ} (hB : 0 < B) {cs : List (List α)}
    (hfull : ∀ c ∈ cs.dropLast, c.length = B) (hle : ∀ c ∈ cs, c.length ≤ B) (p : ℕ) :
    cs.flatten[p]? = cs[p / B]?.bind fun piece => piece[p % B]? := by
  induction cs generalizing p with
  | nil => simp
  | cons c cs ih =>
    rw [flatten_cons]
    rcases Nat.lt_or_ge p B with hp | hp
    · rw [Nat.div_eq_of_lt hp, Nat.mod_eq_of_lt hp, List.getElem?_cons_zero, bind_some]
      cases cs with
      | nil => rw [flatten_nil, append_nil]
      | cons c' cs =>
        have hc : c.length = B := hfull c (by simp)
        rw [List.getElem?_append_left (by omega)]
    · have hdiv : p / B = (p - B) / B + 1 := by
        rw [← Nat.add_div_right _ hB, Nat.sub_add_cancel hp]
      rw [hdiv, List.getElem?_cons_succ, Nat.mod_eq_sub_mod hp]
      cases cs with
      | nil =>
        have hc := hle c (by simp)
        rw [flatten_nil, append_nil, List.getElem?_eq_none (by omega)]
        rfl
      | cons c' cs =>
        have hc : c.length = B := hfull c (by simp)
        rw [List.getElem?_append_right (by omega), hc]
        exact ih (fun x hx => hfull x (by
          rw [dropLast_cons_cons]; exact mem_cons_of_mem c hx))
          (fun x hx => hle x (mem_cons_of_mem c hx)) (p - B)

theorem take_drop_uniform {E : ℕ} (hE : ∀ a ∈ l, (f a).length = E) {m : ℕ} (h : i + m ≤ l.length) :
    ((l.flatMap f).drop (i * E)).take (m * E) = ((l.drop i).take m).flatMap f := by
  have hi : i * E = offset f l i := (offset_uniform hE (by omega)).symm
  rw [hi, drop_offset]
  have hE' : ∀ a ∈ l.drop i, (f a).length = E := fun a ha => hE a (mem_of_mem_drop ha)
  have hlen : m ≤ (l.drop i).length := by rw [length_drop]; omega
  conv_lhs => rw [← take_append_drop m (l.drop i), flatMap_append]
  rw [take_left']
  rw [length_uniform (fun a ha => hE' a (mem_of_mem_take ha)), length_take,
    Nat.min_eq_left hlen]

end Pieces
