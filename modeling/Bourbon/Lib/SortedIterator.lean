import Mathlib.Data.Option.Defs
import Mathlib.Data.Set.Card
import Mathlib.Order.OrderDual
import Bourbon.Lib.Steps

/-!
# Iterators over sorted elements

An iterator stands at an element or at no element.  It can be moved to the first or to the last
element, to the first one from a key on, and from the element at which it stands to its neighbours.
An operation that does not return gives `none`.

* `IsFirst`, `IsLast` : the element where an iterator has to stand after a move;
* `Iterates` : an iterator does what its interface says, for a set of elements;
* `iterates_list` : the cursor over a sorted list does;
* `Iterates.forward`, `Iterates.backward` : a full scan delivers every element once, in order;
* `Iterates.calls_agree` : two iterators over the same elements cannot be told apart.
-/

/-- The operations of an iterator with states `σ` over elements `α` with keys `ι`. -/
structure SortedIterator (σ α ι : Type*) where
  /-- The element at which the iterator stands. -/
  entry : σ → Option α
  seekToFirst : σ → Option σ
  seekToLast : σ → Option σ
  seek : ι → σ → Option σ
  next : σ → Option σ
  prev : σ → Option σ

namespace SortedIterator

open List

variable {σ α ι : Type*}

section Moves

variable [LinearOrder ι] {key : α → ι} {S : Set α} {p : ι → Prop}

/-- The element with the smallest key that satisfies `p`, if there is one. -/
def IsFirst (key : α → ι) (S : Set α) (p : ι → Prop) : Option α → Prop
  | some a => a ∈ S ∧ p (key a) ∧ ∀ b ∈ S, p (key b) → key a ≤ key b
  | none => ∀ b ∈ S, ¬ p (key b)

/-- The element with the largest key that satisfies `p`, if there is one. -/
def IsLast (key : α → ι) (S : Set α) (p : ι → Prop) : Option α → Prop
  | some a => a ∈ S ∧ p (key a) ∧ ∀ b ∈ S, p (key b) → key b ≤ key a
  | none => ∀ b ∈ S, ¬ p (key b)

variable {x : Option α}

theorem isLast_iff_dual :
    IsLast key S p x ↔
      IsFirst (fun a => OrderDual.toDual (key a)) S (fun i => p (OrderDual.ofDual i))
      x := by
  cases x <;> exact Iff.rfl

variable {q : ι → Prop}

theorem IsFirst.congr (h : IsFirst key S p x)
    (hpq : ∀ a ∈ S, p (key a) ↔ q (key a)) : IsFirst key S q x := by
  cases x with
  | none => exact fun b hb hq => h b hb ((hpq b hb).2 hq)
  | some a =>
    obtain ⟨ha, hp, hle⟩ := h
    exact ⟨ha, (hpq a ha).1 hp, fun b hb hq => hle b hb ((hpq b hb).2 hq)⟩

theorem IsLast.congr (h : IsLast key S p x)
    (hpq : ∀ a ∈ S, p (key a) ↔ q (key a)) : IsLast key S q x :=
  isLast_iff_dual.2 ((isLast_iff_dual.1 h).congr hpq)

end Moves

/-- An iterator does what its interface says, in all states that satisfy the invariant. -/
structure Iterates [LinearOrder ι] (it : SortedIterator σ α ι) (key : α → ι) (S : Set α)
    (inv : σ → Prop) : Prop where
  mem : ∀ s a, inv s → it.entry s = some a → a ∈ S
  seekToFirst : ∀ s, inv s → ∃ s', it.seekToFirst s = some s' ∧ inv s' ∧
    IsFirst key S (fun _ => True) (it.entry s')
  seekToLast : ∀ s, inv s → ∃ s', it.seekToLast s = some s' ∧ inv s' ∧
    IsLast key S (fun _ => True) (it.entry s')
  seek : ∀ s target, inv s → ∃ s', it.seek target s = some s' ∧ inv s' ∧
    IsFirst key S (fun i => target ≤ i) (it.entry s')
  next : ∀ s a, inv s → it.entry s = some a → ∃ s', it.next s = some s' ∧ inv s' ∧
    IsFirst key S (fun i => key a < i) (it.entry s')
  prev : ∀ s a, inv s → it.entry s = some a → ∃ s', it.prev s = some s' ∧ inv s' ∧
    IsLast key S (fun i => i < key a) (it.entry s')

/-! ### Scans -/

/-- The elements that a loop meets which makes the same move as long as the iterator is valid. -/
def collect (entry : σ → Option α) (move : σ → Option σ) : ℕ → σ → Option (List α)
  | 0, s =>
    match entry s with
    | none => some []
    | some _ => none
  | fuel + 1, s =>
    match entry s with
    | none => some []
    | some a => (move s).bind fun s' => (collect entry move fuel s').map fun rest => a :: rest

/-- A full forward scan. -/
def forward (it : SortedIterator σ α ι) (fuel : ℕ) (s : σ) : Option (List α) :=
  (it.seekToFirst s).bind (collect it.entry it.next fuel)

/-- A full backward scan. -/
def backward (it : SortedIterator σ α ι) (fuel : ℕ) (s : σ) : Option (List α) :=
  (it.seekToLast s).bind (collect it.entry it.prev fuel)

section Scans

variable [LinearOrder ι] {key : α → ι} {S : Set α} {inv : σ → Prop}

theorem collect_spec {entry : σ → Option α} {move : σ → Option σ}
    (hmove : ∀ s a, inv s → entry s = some a → ∃ s', move s = some s' ∧ inv s' ∧
      IsFirst key S (fun i => key a < i) (entry s'))
    (hfin : S.Finite) (hinj : Set.InjOn key S) {p : ι → Prop} (hp : ∀ i j, i ≤ j → p i → p j)
    {fuel : ℕ} {s : σ} (hs : inv s) (hfirst : IsFirst key S p (entry s))
    (hfuel : {a ∈ S | p (key a)}.ncard ≤ fuel) :
    ∃ l, collect entry move fuel s = some l ∧ l.Pairwise (fun a b => key a < key b) ∧
      ∀ a, a ∈ l ↔ a ∈ S ∧ p (key a) := by
  induction fuel generalizing s p with
  | zero =>
    have hempty : {a ∈ S | p (key a)} = ∅ :=
      (Set.ncard_eq_zero (hfin.subset (Set.sep_subset _ _))).1 (Nat.le_zero.1 hfuel)
    rw [collect]
    cases hentry : entry s with
    | none =>
      exact ⟨[], rfl, List.Pairwise.nil, fun a => iff_of_false not_mem_nil fun ha =>
        Set.notMem_empty a (hempty ▸ ha)⟩
    | some a =>
      rw [hentry] at hfirst
      have ha : a ∈ {a ∈ S | p (key a)} := ⟨hfirst.1, hfirst.2.1⟩
      rw [hempty] at ha
      exact ha.elim
  | succ fuel ih =>
    rw [collect]
    cases hentry : entry s with
    | none =>
      rw [hentry] at hfirst
      exact ⟨[], rfl, List.Pairwise.nil, fun a => iff_of_false not_mem_nil fun ha =>
        hfirst a ha.1 ha.2⟩
    | some a =>
      rw [hentry] at hfirst
      obtain ⟨ha, hpa, hle⟩ := hfirst
      obtain ⟨s', hs', hinv, hnext⟩ := hmove s a hs hentry
      -- behind `a` there is one element less
      have hlt : {b ∈ S | key a < key b}.ncard < {b ∈ S | p (key b)}.ncard := by
        refine Set.ncard_lt_ncard ⟨?_, ?_⟩ (hfin.subset (Set.sep_subset _ _))
        · exact fun b hb => ⟨hb.1, hp _ _ hb.2.le hpa⟩
        · exact fun hsub => lt_irrefl _ (hsub ⟨ha, hpa⟩).2
      obtain ⟨l, hl, hsorted, hmem⟩ := ih (fun i j hij hi => hi.trans_le hij) hinv hnext
        (Nat.le_of_lt_succ (hlt.trans_le hfuel))
      refine ⟨a :: l, by simp only [hs', Option.bind_some, hl, Option.map_some],
        pairwise_cons.2 ⟨fun b hb => ((hmem b).1 hb).2, hsorted⟩, fun b => ?_⟩
      rw [mem_cons, hmem]
      constructor
      · rintro (rfl | ⟨hb, hab⟩)
        · exact ⟨ha, hpa⟩
        · exact ⟨hb, hp _ _ hab.le hpa⟩
      · rintro ⟨hb, hpb⟩
        rcases (hle b hb hpb).eq_or_lt with heq | hab
        · exact Or.inl (hinj hb ha heq.symm)
        · exact Or.inr ⟨hb, hab⟩

variable {it : SortedIterator σ α ι} {s : σ} {fuel : ℕ}

/-- **A forward scan delivers every element, in order.** -/
theorem Iterates.forward (h : it.Iterates key S inv) (hfin : S.Finite) (hinj : Set.InjOn key S)
    (hs : inv s) (hfuel : S.ncard ≤ fuel) :
    ∃ l, it.forward fuel s = some l ∧ l.Pairwise (fun a b => key a < key b) ∧
      ∀ a, a ∈ l ↔ a ∈ S := by
  obtain ⟨s', hs', hinv, hfirst⟩ := h.seekToFirst s hs
  obtain ⟨l, hl, hsorted, hmem⟩ :=
    collect_spec h.next hfin hinj (fun _ _ _ _ => trivial) hinv hfirst
    (by simpa using hfuel)
  exact ⟨l, by rw [SortedIterator.forward, hs', Option.bind_some, hl], hsorted,
    fun a => by rw [hmem, and_true]⟩

/-- **A backward scan delivers every element, in the opposite order.** -/
theorem Iterates.backward (h : it.Iterates key S inv) (hfin : S.Finite) (hinj : Set.InjOn key S)
    (hs : inv s) (hfuel : S.ncard ≤ fuel) :
    ∃ l, it.backward fuel s = some l ∧ l.Pairwise (fun a b => key b < key a) ∧
      ∀ a, a ∈ l ↔ a ∈ S := by
  obtain ⟨s', hs', hinv, hlast⟩ := h.seekToLast s hs
  have hprev : ∀ s a, inv s → it.entry s = some a → ∃ s', it.prev s = some s' ∧ inv s' ∧
      IsFirst (fun a => OrderDual.toDual (key a)) S (fun i => OrderDual.toDual (key a) < i)
        (it.entry s') := fun s a hs ha => by
    obtain ⟨s', hs', hinv, hlast⟩ := h.prev s a hs ha
    exact ⟨s', hs', hinv, isLast_iff_dual.1 hlast⟩
  obtain ⟨l, hl, hsorted, hmem⟩ := collect_spec hprev hfin
    (fun a ha b hb hab => hinj ha hb (OrderDual.toDual.injective hab)) (fun _ _ _ _ => trivial) hinv
    (isLast_iff_dual.1 hlast) (by simpa using hfuel)
  exact ⟨l, by rw [SortedIterator.backward, hs', Option.bind_some, hl], hsorted,
    fun a => by rw [hmem, and_true]⟩

end Scans

/-! ### Cursors over a list -/

/-- A position in a list; a position behind the end is not valid. -/
structure ListCursor (α : Type*) where
  entries : List α
  index : ℕ

/-- A list as an iterator. -/
def list [LinearOrder ι] (key : α → ι) : SortedIterator (ListCursor α) α ι where
  entry s := s.entries[s.index]?
  seekToFirst s := some { s with index := 0 }
  seekToLast s := some { s with index := s.entries.length - 1 }
  seek target s := some { s with index := s.entries.findIdx fun a => decide (target ≤ key a) }
  next s := if s.index < s.entries.length then some { s with index := s.index + 1 } else none
  prev s :=
    if s.index < s.entries.length then
      some { s with index := if s.index = 0 then s.entries.length else s.index - 1 }
    else none

section Lists

variable [LinearOrder ι] {key : α → ι} {l : List α}

variable {p : ι → Prop} {i : ℕ}

theorem isFirst_of_index (hsorted : l.Pairwise fun a b => key a < key b)
    (hbefore : ∀ j a, j < i → l[j]? = some a → ¬ p (key a))
    (hfrom : ∀ a, l[i]? = some a → p (key a)) : IsFirst key {a | a ∈ l} p l[i]? := by
  have hmem : ∀ b ∈ l, p (key b) → ∃ j, i ≤ j ∧ l[j]? = some b := by
    intro b hb hp
    obtain ⟨j, hj⟩ := mem_iff_getElem?.1 hb
    exact ⟨j, not_lt.1 fun hlt => hbefore j b hlt hj hp, hj⟩
  cases hi : l[i]? with
  | none =>
    intro b hb hp
    obtain ⟨j, hij, hj⟩ := hmem b hb hp
    rw [List.getElem?_eq_none ((List.getElem?_eq_none_iff.1 hi).trans hij)] at hj
    cases hj
  | some a =>
    refine ⟨mem_of_getElem? hi, hfrom a hi, fun b hb hp => ?_⟩
    obtain ⟨j, hij, hj⟩ := hmem b hb hp
    obtain ⟨hi', rfl⟩ := List.getElem?_eq_some_iff.1 hi
    obtain ⟨hj', rfl⟩ := List.getElem?_eq_some_iff.1 hj
    rcases hij.eq_or_lt with rfl | hlt
    · exact le_rfl
    · exact (pairwise_iff_getElem.1 hsorted i j hi' hj' hlt).le

theorem isLast_of_index (hsorted : l.Pairwise fun a b => key a < key b)
    (hbehind : ∀ j a, i < j → l[j]? = some a → ¬ p (key a))
    (hfrom : ∀ a, l[i]? = some a → p (key a)) (hi : i < l.length) :
    IsLast key {a | a ∈ l} p l[i]? := by
  rw [List.getElem?_eq_getElem hi]
  refine ⟨getElem_mem hi, hfrom _ (List.getElem?_eq_getElem hi), fun b hb hp => ?_⟩
  obtain ⟨j, hj⟩ := mem_iff_getElem?.1 hb
  have hji : j ≤ i := not_lt.1 fun hlt => hbehind j b hlt hj hp
  obtain ⟨hj', rfl⟩ := List.getElem?_eq_some_iff.1 hj
  rcases hji.eq_or_lt with rfl | hlt
  · exact le_rfl
  · exact (pairwise_iff_getElem.1 hsorted j i hj' hi hlt).le

/-- **The cursor over a sorted list iterates its elements.** -/
theorem iterates_list (hsorted : l.Pairwise fun a b => key a < key b) :
    (list key).Iterates key {a | a ∈ l} fun s => s.entries = l where
  mem := by
    rintro ⟨_, i⟩ a rfl ha
    exact mem_of_getElem? ha
  seekToFirst := by
    rintro ⟨_, i⟩ rfl
    exact ⟨_, rfl, rfl, isFirst_of_index hsorted (fun j _ hj => absurd hj (Nat.not_lt_zero j))
      fun _ _ => trivial⟩
  seekToLast := by
    rintro ⟨l, i⟩ rfl
    refine ⟨_, rfl, rfl, ?_⟩
    rcases l.length.eq_zero_or_pos with hzero | hpos
    · obtain rfl := eq_nil_of_length_eq_zero hzero
      exact fun b hb => absurd hb not_mem_nil
    · refine isLast_of_index hsorted (fun j a hj ha => ?_) (fun _ _ => trivial)
        (Nat.sub_lt hpos Nat.one_pos)
      have hlt := (List.getElem?_eq_some_iff.1 ha).1
      exact absurd (Nat.le_sub_one_of_lt hlt) (not_le.2 hj)
  seek := by
    rintro ⟨_, i⟩ target rfl
    refine ⟨_, rfl, rfl, isFirst_of_index hsorted (fun j a hj ha => ?_) fun a ha => ?_⟩
    · obtain ⟨hlt, rfl⟩ := List.getElem?_eq_some_iff.1 ha
      simpa using not_of_lt_findIdx hj
    · obtain ⟨hlt, rfl⟩ := List.getElem?_eq_some_iff.1 ha
      simpa using findIdx_getElem (w := hlt)
  next := by
    rintro ⟨_, i⟩ a rfl ha
    obtain ⟨hi, rfl⟩ := List.getElem?_eq_some_iff.1 ha
    refine ⟨_, if_pos hi, rfl, isFirst_of_index hsorted (fun j b hj hb => ?_) fun b hb => ?_⟩
    · obtain ⟨hj', rfl⟩ := List.getElem?_eq_some_iff.1 hb
      rcases (Nat.le_of_lt_succ hj).eq_or_lt with rfl | hlt
      · exact lt_irrefl _
      · exact (pairwise_iff_getElem.1 hsorted j i hj' hi hlt).not_gt
    · obtain ⟨hj', rfl⟩ := List.getElem?_eq_some_iff.1 hb
      exact pairwise_iff_getElem.1 hsorted i (i + 1) hi hj' (Nat.lt_succ_self i)
  prev := by
    rintro ⟨l, i⟩ a rfl ha
    obtain ⟨hi, rfl⟩ := List.getElem?_eq_some_iff.1 ha
    refine ⟨_, if_pos hi, rfl, ?_⟩
    have hi : i < l.length := hi
    have hnot : ∀ j b, i ≤ j → l[j]? = some b → ¬ key b < key l[i] := by
      intro j b hij hb
      obtain ⟨hj', rfl⟩ := List.getElem?_eq_some_iff.1 hb
      rcases hij.eq_or_lt with rfl | hlt
      · exact lt_irrefl _
      · exact (pairwise_iff_getElem.1 hsorted i j hi hj' hlt).not_gt
    by_cases hzero : i = 0
    · subst hzero
      simp only [list, if_true, List.getElem?_length]
      intro b hb
      obtain ⟨j, hj⟩ := mem_iff_getElem?.1 hb
      exact hnot j b (Nat.zero_le j) hj
    · simp only [list, if_neg hzero]
      have hpos := Nat.pos_of_ne_zero hzero
      refine isLast_of_index hsorted (fun j b hj hb => hnot j b (by omega) hb) (fun b hb => ?_)
        (by omega)
      obtain ⟨hj', rfl⟩ := List.getElem?_eq_some_iff.1 hb
      exact pairwise_iff_getElem.1 hsorted (i - 1) i hj' hi (Nat.sub_lt hpos Nat.one_pos)

end Lists

/-! ### Sequences of calls -/

/-- The calls that move an iterator. -/
inductive Call (ι : Type*) where
  | seekToFirst
  | seekToLast
  | seek (target : ι)
  | next
  | prev

/-- The iterator after a call. -/
def call (it : SortedIterator σ α ι) (s : σ) : Call ι → Option σ
  | .seekToFirst => it.seekToFirst s
  | .seekToLast => it.seekToLast s
  | .seek target => it.seek target s
  | .next => it.next s
  | .prev => it.prev s

/-- There are no neighbours where there is no element. -/
def Guarded (it : SortedIterator σ α ι) (inv : σ → Prop) : Prop :=
  ∀ s, inv s → it.entry s = none → it.next s = none ∧ it.prev s = none

section Calls

variable [LinearOrder ι] {key : α → ι} {S : Set α} {p : ι → Prop}

variable {x y : Option α}

theorem IsFirst.unique (hinj : Set.InjOn key S) (hx : IsFirst key S p x)
    (hy : IsFirst key S p y) : x = y := by
  cases x with
  | none =>
    cases y with
    | none => rfl
    | some b => exact absurd hy.2.1 (hx b hy.1)
  | some a =>
    cases y with
    | none => exact absurd hx.2.1 (hy a hx.1)
    | some b =>
      rw [hinj hx.1 hy.1 (le_antisymm (hx.2.2 b hy.1 hy.2.1) (hy.2.2 a hx.1 hx.2.1))]

theorem IsLast.unique (hinj : Set.InjOn key S) (hx : IsLast key S p x)
    (hy : IsLast key S p y) : x = y :=
  (isLast_iff_dual.1 hx).unique (fun _ ha _ hb hab => hinj ha hb (OrderDual.toDual.injective hab))
    (isLast_iff_dual.1 hy)

variable {τ : Type*} {it : SortedIterator σ α ι} {it' : SortedIterator τ α ι} {inv : σ → Prop}
  {inv' : τ → Prop} {s : σ} {t : τ}

/-- The two iterators stand at the same element, or both at none. -/
def Agree (it : SortedIterator σ α ι) (it' : SortedIterator τ α ι) (inv : σ → Prop)
    (inv' : τ → Prop) (s : σ) (t : τ) : Prop :=
  inv s ∧ inv' t ∧ it.entry s = it'.entry t

theorem Iterates.call_agree (h : it.Iterates key S inv) (h' : it'.Iterates key S inv')
    (hguard : it.Guarded inv) (hguard' : it'.Guarded inv') (hinj : Set.InjOn key S)
    (hagree : Agree it it' inv inv' s t) (c : Call ι) :
    Option.Rel (Agree it it' inv inv') (it.call s c) (it'.call t c) := by
  obtain ⟨hs, ht, heq⟩ := hagree
  cases c with
  | seekToFirst =>
    obtain ⟨s', hs', hinv, hfirst⟩ := h.seekToFirst s hs
    obtain ⟨t', ht', hinv', hfirst'⟩ := h'.seekToFirst t ht
    rw [call, call, hs', ht']
    exact .some ⟨hinv, hinv', hfirst.unique hinj hfirst'⟩
  | seekToLast =>
    obtain ⟨s', hs', hinv, hlast⟩ := h.seekToLast s hs
    obtain ⟨t', ht', hinv', hlast'⟩ := h'.seekToLast t ht
    rw [call, call, hs', ht']
    exact .some ⟨hinv, hinv', hlast.unique hinj hlast'⟩
  | seek target =>
    obtain ⟨s', hs', hinv, hfirst⟩ := h.seek s target hs
    obtain ⟨t', ht', hinv', hfirst'⟩ := h'.seek t target ht
    rw [call, call, hs', ht']
    exact .some ⟨hinv, hinv', hfirst.unique hinj hfirst'⟩
  | next =>
    rw [call, call]
    cases ha : it.entry s with
    | none =>
      rw [(hguard s hs ha).1, (hguard' t ht (heq ▸ ha)).1]
      exact .none
    | some a =>
      obtain ⟨s', hs', hinv, hfirst⟩ := h.next s a hs ha
      obtain ⟨t', ht', hinv', hfirst'⟩ := h'.next t a ht (heq ▸ ha)
      rw [hs', ht']
      exact .some ⟨hinv, hinv', hfirst.unique hinj hfirst'⟩
  | prev =>
    rw [call, call]
    cases ha : it.entry s with
    | none =>
      rw [(hguard s hs ha).2, (hguard' t ht (heq ▸ ha)).2]
      exact .none
    | some a =>
      obtain ⟨s', hs', hinv, hlast⟩ := h.prev s a hs ha
      obtain ⟨t', ht', hinv', hlast'⟩ := h'.prev t a ht (heq ▸ ha)
      rw [hs', ht']
      exact .some ⟨hinv, hinv', hlast.unique hinj hlast'⟩

/-- **Two iterators over the same elements cannot be told apart** by any sequence of calls. -/
theorem Iterates.calls_agree (h : it.Iterates key S inv) (h' : it'.Iterates key S inv')
    (hguard : it.Guarded inv) (hguard' : it'.Guarded inv') (hinj : Set.InjOn key S)
    (hagree : Agree it it' inv inv' s t) (calls : List (Call ι)) :
    Option.Rel (Agree it it' inv inv') (Steps.run it.call s calls)
    (Steps.run it'.call t calls) := by
  induction calls generalizing s t with
  | nil => exact .some hagree
  | cons c calls ih =>
    have hcall := h.call_agree h' hguard hguard' hinj hagree c
    rw [Steps.run, Steps.run]
    cases hs : it.call s c with
    | none =>
      rw [hs] at hcall
      cases ht : it'.call t c with
      | none => exact .none
      | some t' =>
        rw [ht] at hcall
        cases hcall
    | some s' =>
      rw [hs] at hcall
      cases ht : it'.call t c with
      | none =>
        rw [ht] at hcall
        cases hcall
      | some t' =>
        rw [ht] at hcall
        cases hcall with
        | some hagree' => exact ih hagree'

theorem injOn_of_sorted {l : List α} (hsorted : l.Pairwise fun a b => key a < key b) :
    Set.InjOn key {a | a ∈ l} := by
  intro a ha b hb hkey
  have : Std.Symm fun x y : α => key x ≠ key y := ⟨fun _ _ h => h.symm⟩
  by_contra hne
  exact (hsorted.imp fun hlt => hlt.ne).forall ha hb hne hkey

theorem guarded_list (l : List α) : (list key).Guarded fun s => s.entries = l := by
  rintro ⟨_, i⟩ - hnone
  have hle := List.getElem?_eq_none_iff.1 hnone
  exact ⟨if_neg (not_lt.2 hle), if_neg (not_lt.2 hle)⟩

end Calls

end SortedIterator
