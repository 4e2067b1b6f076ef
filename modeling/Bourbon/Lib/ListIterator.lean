import Bourbon.Lib.SortedIterator

/-!
# Iterators over a list

An iterator that moves over a list in the order of the list, whatever the order of the keys is.
`Follows` says where every move leads; the position behind the end of the list is the one at which
the iterator is not valid.

* `Follows.forward`, `Follows.backward` : a full scan delivers the list, or the reversed list;
* `Follows.run` : every sequence of calls leads where it leads a cursor over the list;
* `follows_list` : the cursor over a list is such an iterator.
-/

namespace SortedIterator

open List Option

variable {σ α ι : Type*}

/-- The iterator moves over the list `l`, and `pos i s` says that it stands at position `i`.  The
elements before a target form the part that a seek skips. -/
structure Follows (it : SortedIterator σ α ι) (before : ι → α → Bool) (l : List α)
    (pos : ℕ → σ → Prop) : Prop where
  le : ∀ {i s}, pos i s → i ≤ l.length
  entry : ∀ {i s}, pos i s → it.entry s = l[i]?
  seekToFirst : ∀ {i s}, pos i s → ∃ s', it.seekToFirst s = some s' ∧ pos 0 s'
  seekToLast : ∀ {i s}, pos i s → ∃ s', it.seekToLast s = some s' ∧ pos (l.length - 1) s'
  seek : ∀ {i s} target, pos i s → ∃ s', it.seek target s = some s' ∧
    pos (l.findIdx fun a => !before target a) s'
  next : ∀ {i s}, pos i s → i < l.length → ∃ s', it.next s = some s' ∧ pos (i + 1) s'
  prev : ∀ {i s}, pos i s → i < l.length → ∃ s', it.prev s = some s' ∧
    pos (if i = 0 then l.length else i - 1) s'

namespace Follows

variable {it : SortedIterator σ α ι} {before : ι → α → Bool} {l : List α} {pos : ℕ → σ → Prop}
  {i fuel : ℕ} {s : σ}

theorem collect_next (h : it.Follows before l pos) (hs : pos i s) (hfuel : l.length - i ≤ fuel) :
    collect it.entry it.next fuel s = some (l.drop i) := by
  induction fuel generalizing i s with
  | zero =>
    have hlen : l.length ≤ i := Nat.sub_eq_zero_iff_le.1 (Nat.le_zero.1 hfuel)
    rw [collect, h.entry hs, List.getElem?_eq_none hlen, drop_eq_nil_of_le hlen]
  | succ fuel ih =>
    rw [collect, h.entry hs]
    rcases (h.le hs).eq_or_lt with rfl | hlt
    · rw [List.getElem?_eq_none le_rfl, drop_length]
    · obtain ⟨s', hs', hpos⟩ := h.next hs hlt
      rw [List.getElem?_eq_getElem hlt, drop_eq_getElem_cons hlt]
      simp only [hs', bind_some, ih hpos (by omega), map_some]

theorem collect_prev (h : it.Follows before l pos) (hs : pos i s) (hi : i < l.length)
    (hfuel : i < fuel) : collect it.entry it.prev fuel s = some (l.take (i + 1)).reverse := by
  induction fuel generalizing i s with
  | zero => exact absurd hfuel (Nat.not_lt_zero i)
  | succ fuel ih =>
    obtain ⟨s', hs', hpos⟩ := h.prev hs hi
    rw [collect, h.entry hs, List.getElem?_eq_getElem hi, take_succ_eq_append_getElem hi,
      reverse_append, reverse_singleton, singleton_append]
    simp only [hs', bind_some]
    cases i with
    | zero =>
      rw [if_pos rfl] at hpos
      have hend : it.entry s' = none := by rw [h.entry hpos, List.getElem?_length]
      have hstop : collect it.entry it.prev fuel s' = some [] := by
        cases fuel <;> rw [collect, hend]
      rw [hstop, map_some, take_zero, reverse_nil]
    | succ i =>
      rw [if_neg (Nat.succ_ne_zero i), Nat.add_sub_cancel] at hpos
      rw [ih hpos (Nat.lt_of_succ_lt hi) (Nat.lt_of_succ_lt_succ hfuel), map_some]

/-- **A forward scan delivers the list.** -/
theorem forward (h : it.Follows before l pos) (hs : pos i s) (hfuel : l.length ≤ fuel) :
    it.forward fuel s = some l := by
  obtain ⟨s', hs', hpos⟩ := h.seekToFirst hs
  rw [SortedIterator.forward, hs', bind_some, h.collect_next hpos hfuel, drop_zero]

/-- **A backward scan delivers the reversed list.** -/
theorem backward (h : it.Follows before l pos) (hs : pos i s) (hfuel : l.length ≤ fuel) :
    it.backward fuel s = some l.reverse := by
  obtain ⟨s', hs', hpos⟩ := h.seekToLast hs
  rw [SortedIterator.backward, hs', bind_some]
  rcases l.length.eq_zero_or_pos with hzero | hlen
  · obtain rfl := eq_nil_of_length_eq_zero hzero
    have hend : it.entry s' = none := by rw [h.entry hpos, List.getElem?_nil]
    cases fuel <;> rw [collect, hend, reverse_nil]
  · rw [h.collect_prev hpos (Nat.sub_lt hlen Nat.one_pos) (by omega), Nat.sub_add_cancel hlen,
      take_length]

/-! ### Sequences of calls -/

/-- The position of a cursor over a list after a call; there are no neighbours where there is no
element. -/
def cursorCall (before : ι → α → Bool) (l : List α) (i : ℕ) : Call ι → Option ℕ
  | .seekToFirst => some 0
  | .seekToLast => some (l.length - 1)
  | .seek target => some (l.findIdx fun a => !before target a)
  | .next => if i < l.length then some (i + 1) else none
  | .prev => if i < l.length then some (if i = 0 then l.length else i - 1) else none

theorem call (h : it.Follows before l pos) (hs : pos i s) {c : Call ι} {i' : ℕ}
    (hc : cursorCall before l i c = some i') : ∃ s', it.call s c = some s' ∧ pos i' s' := by
  cases c with
  | seekToFirst =>
    obtain rfl := some.inj hc
    exact h.seekToFirst hs
  | seekToLast =>
    obtain rfl := some.inj hc
    exact h.seekToLast hs
  | seek target =>
    obtain rfl := some.inj hc
    exact h.seek target hs
  | next =>
    obtain ⟨hi, hi'⟩ := ite_none_right_eq_some.1 hc
    exact some.inj hi' ▸ h.next hs hi
  | prev =>
    obtain ⟨hi, hi'⟩ := ite_none_right_eq_some.1 hc
    exact some.inj hi' ▸ h.prev hs hi

/-- **Any sequence of calls.** -/
theorem run (h : it.Follows before l pos) (hs : pos i s) {calls : List (Call ι)} {i' : ℕ}
    (hrun : Steps.run (cursorCall before l) i calls = some i') :
    ∃ s', Steps.run it.call s calls = some s' ∧ pos i' s' := by
  induction calls generalizing i s with
  | nil => exact ⟨s, rfl, some.inj hrun ▸ hs⟩
  | cons c calls ih =>
    obtain ⟨i₁, hc, hrest⟩ := bind_eq_some_iff.1 hrun
    obtain ⟨s₁, hs₁, hpos⟩ := h.call hs hc
    obtain ⟨s', hs', hpos'⟩ := ih hpos hrest
    exact ⟨s', by rw [Steps.run, hs₁, bind_some, hs'], hpos'⟩

end Follows

theorem follows_list [LinearOrder ι] (key : α → ι) (l : List α) :
    (list key).Follows (fun target a => decide (key a < target)) l
      fun i s => s = ⟨l, i⟩ ∧ i ≤ l.length where
  le h := h.2
  entry := by rintro i _ ⟨rfl, -⟩; rfl
  seekToFirst := by rintro i _ ⟨rfl, -⟩; exact ⟨_, rfl, rfl, Nat.zero_le _⟩
  seekToLast := by rintro i _ ⟨rfl, -⟩; exact ⟨_, rfl, rfl, Nat.sub_le _ _⟩
  seek := by
    rintro i _ target ⟨rfl, -⟩
    refine ⟨_, rfl, ?_, findIdx_le_length⟩
    simp only [← decide_not, not_lt]
  next := by
    rintro i _ ⟨rfl, -⟩ hi
    exact ⟨_, if_pos hi, rfl, hi⟩
  prev := by
    rintro i _ ⟨rfl, -⟩ hi
    refine ⟨_, if_pos hi, rfl, ?_⟩
    split_ifs <;> omega

end SortedIterator
