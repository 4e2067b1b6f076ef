import Mathlib.Data.List.Nodup
import Mathlib.Logic.Function.Basic

/-!
# Circular doubly linked lists

Nodes are linked in both directions, and a list is a circle of nodes through a head that is not an
element.  `Links` are the two pointers of every node; `remove` and `append` are the usual pointer
operations, in the order in which programs make the assignments.

* `Links.IsList` : the nodes on the circle of a head, in the order of the `next` pointers;
* `Links.IsList.append`, `Links.IsList.remove` : what the operations do to the list of a node;
* `Links.IsList.append_frame`, `Links.IsList.remove_frame` : lists of other heads stay as they are.
-/

/-- The pointers of every node. -/
structure Links (α : Type*) where
  next : α → α
  prev : α → α

namespace Links

open List Function

variable {α : Type*} [DecidableEq α]

/-- Take a node out of its circle. -/
def remove (L : Links α) (e : α) : Links α :=
  let prev := update L.prev (L.next e) (L.prev e)
  ⟨update L.next (prev e) (L.next e), prev⟩

/-- Put a node into a circle, right before its head. -/
def append (L : Links α) (head e : α) : Links α :=
  let next := update L.next e head
  let prev := update L.prev e (L.prev head)
  let next := update next (prev e) e
  ⟨next, update prev (next e) e⟩

/-! ### Segments -/

/-- The `next` pointers lead from `a` through `l` to `b`, and the `prev` pointers back. -/
def Seg (L : Links α) : α → List α → α → Prop
  | a, [], b => L.next a = b ∧ L.prev b = a
  | a, x :: l, b => L.next a = x ∧ L.prev x = a ∧ Seg L x l b

/-- The nodes on the circle of a head. -/
structure IsList (L : Links α) (head : α) (l : List α) : Prop where
  nodup : (head :: l).Nodup
  seg : L.Seg head l head

omit [DecidableEq α]

variable {L L' : Links α} {a b e n head : α} {l l₁ l₂ : List α}

theorem seg_append : L.Seg a (l₁ ++ e :: l₂) b ↔ L.Seg a l₁ e ∧ L.Seg e l₂ b := by
  induction l₁ generalizing a with
  | nil =>
    rw [nil_append, Seg, Seg, and_assoc]
  | cons x l₁ ih => rw [cons_append, Seg, Seg, ih, and_assoc, and_assoc]

theorem Seg.congr (h : L.Seg a l b) (hnext : ∀ y ∈ a :: l, L'.next y = L.next y)
    (hprev : ∀ y ∈ l ++ [b], L'.prev y = L.prev y) : L'.Seg a l b := by
  induction l generalizing a with
  | nil =>
    obtain ⟨h1, h2⟩ := h
    exact ⟨by rw [hnext a (by simp), h1], by rw [hprev b (by simp), h2]⟩
  | cons x l ih =>
    obtain ⟨h1, h2, h3⟩ := h
    exact ⟨by rw [hnext a (by simp), h1], by rw [hprev x (by simp), h2],
      ih h3 (fun y hy => hnext y (mem_cons_of_mem a hy))
        fun y hy => hprev y (mem_cons_of_mem x hy)⟩

theorem Seg.prev_mem (h : L.Seg a l b) : L.prev b ∈ a :: l := by
  induction l generalizing a with
  | nil => exact h.2 ▸ mem_cons_self
  | cons x l ih => exact mem_cons_of_mem a (ih h.2.2)

theorem Seg.next_mem (h : L.Seg a l b) : L.next a ∈ l ++ [b] := by
  cases l with
  | nil => exact h.1 ▸ mem_cons_self
  | cons x l => exact h.1 ▸ mem_cons_self

/-- A segment with another end: only the pointer of its last node changes. -/
theorem Seg.relink (h : L.Seg a l e) (hnodup : (a :: l).Nodup)
    (hnext : ∀ y ∈ a :: l, y ≠ L.prev e → L'.next y = L.next y)
    (hprev : ∀ y ∈ l, L'.prev y = L.prev y) (hn : L'.next (L.prev e) = n)
    (hp : L'.prev n = L.prev e) : L'.Seg a l n := by
  induction l generalizing a with
  | nil =>
    obtain ⟨-, h2⟩ := h
    exact ⟨h2 ▸ hn, hp.trans h2⟩
  | cons x l ih =>
    obtain ⟨h1, h2, h3⟩ := h
    have hne : a ≠ L.prev e := fun heq =>
      (nodup_cons.1 hnodup).1 (heq ▸ h3.prev_mem)
    exact ⟨by rw [hnext a mem_cons_self hne, h1], by rw [hprev x mem_cons_self, h2],
      ih h3 (nodup_cons.1 hnodup).2 (fun y hy => hnext y (mem_cons_of_mem a hy))
        fun y hy => hprev y (mem_cons_of_mem x hy)⟩

/-! ### Lists -/

theorem IsList.next_head (h : L.IsList head (e :: l)) : L.next head = e := h.seg.1

theorem IsList.next_head_eq (h : L.IsList head l) : L.next head = head ↔ l = [] := by
  cases l with
  | nil => exact iff_of_true h.seg.1 rfl
  | cons x l =>
    refine iff_of_false (fun heq => ?_) (cons_ne_nil x l)
    rw [h.next_head] at heq
    exact (nodup_cons.1 h.nodup).1 (heq ▸ mem_cons_self)

theorem IsList.congr (h : L.IsList head l) (hnext : ∀ y ∈ head :: l, L'.next y = L.next y)
    (hprev : ∀ y ∈ head :: l, L'.prev y = L.prev y) : L'.IsList head l :=
  ⟨h.nodup, h.seg.congr hnext fun y hy => hprev y (by
    rcases mem_append.1 hy with hy | hy
    · exact mem_cons_of_mem head hy
    · rw [mem_singleton.1 hy]
      exact mem_cons_self)⟩

theorem isList_nil (hnext : L.next head = head) (hprev : L.prev head = head) :
    L.IsList head [] :=
  ⟨nodup_singleton head, hnext, hprev⟩

variable [DecidableEq α]

/-- **Appending a node** that is not on the circle. -/
theorem IsList.append (h : L.IsList head l) (he : e ∉ head :: l) :
    (L.append head e).IsList head (l ++ [e]) := by
  have hlast := h.seg.prev_mem
  have hne : e ≠ L.prev head := fun heq => he (heq ▸ hlast)
  have hhead : e ≠ head := fun heq => he (heq ▸ mem_cons_self)
  have hnext : (L.append head e).next = update (update L.next e head)
      (L.prev head) e := by
    rw [Links.append]
    simp only [update_self]
  have hprev : (L.append head e).prev = update (update L.prev e (L.prev head))
      head e := by
    rw [Links.append]
    simp only [update_self, update_of_ne hne]
  refine ⟨?_, seg_append.2 ⟨h.seg.relink h.nodup ?_ ?_ ?_ ?_, ?_, ?_⟩⟩
  · rw [← cons_append, nodup_append]
    refine ⟨h.nodup, nodup_singleton e, fun x hx y hy heq => ?_⟩
    rw [mem_singleton.1 hy] at heq
    exact he (heq ▸ hx)
  · intro y hy hyne
    have hye : y ≠ e := fun heq => he (heq ▸ hy)
    rw [hnext, update_of_ne hyne, update_of_ne hye]
  · intro y hy
    have hye : y ≠ e := fun heq => he (heq ▸ mem_cons_of_mem head hy)
    have hyh : y ≠ head := fun heq => (nodup_cons.1 h.nodup).1 (heq ▸ hy)
    rw [hprev, update_of_ne hyh, update_of_ne hye]
  · rw [hnext, update_self]
  · rw [hprev, update_of_ne hhead, update_self]
  · rw [hnext, update_of_ne hne, update_self]
  · rw [hprev, update_self]

theorem IsList.append_frame {head' : α} {l' : List α} (h : L.IsList head l)
    (h' : L.IsList head' l') (hdisj : ∀ y ∈ head' :: l', y ∉ head :: l) (he : e ∉ head' :: l') :
    (L.append head e).IsList head' l' := by
  refine h'.congr (fun y hy => ?_) fun y hy => ?_
  · have hye : y ≠ e := fun heq => he (heq ▸ hy)
    have hlast : y ≠ L.prev head := fun heq => hdisj y hy (heq ▸ h.seg.prev_mem)
    rw [Links.append]
    simp only [update_self]
    rw [update_of_ne hlast, update_of_ne hye]
  · have hye : y ≠ e := fun heq => he (heq ▸ hy)
    rw [Links.append]
    simp only [update_self]
    by_cases hcase : e = L.prev head
    · rw [update_of_ne, update_of_ne hye]
      rw [← hcase, update_self]
      exact hye
    · rw [update_of_ne hcase, update_self, update_of_ne,
        update_of_ne hye]
      exact fun heq => hdisj y hy (heq ▸ mem_cons_self)

theorem remove_prev (L : Links α) (e : α) :
    (L.remove e).prev = update L.prev (L.next e) (L.prev e) := rfl

theorem remove_next (L : Links α) (e : α) :
    (L.remove e).next = update L.next (L.prev e) (L.next e) := by
  rw [remove]
  simp only
  by_cases h : e = L.next e
  · rw [← h, update_self]
  · rw [update_of_ne h]

/-- **Removing a node** of the circle. -/
theorem IsList.remove (h : L.IsList head l) (he : e ∈ l) :
    (L.remove e).IsList head (l.erase e) := by
  obtain ⟨l₁, l₂, rfl⟩ := append_of_mem he
  have hnodup := h.nodup
  rw [nodup_cons, nodup_append] at hnodup
  obtain ⟨hhead, hnd₁, hnd₂, hdisj⟩ := hnodup
  obtain ⟨he₂, hnd₂⟩ := nodup_cons.1 hnd₂
  have he₁ : e ∉ l₁ := fun hmem => hdisj e hmem e mem_cons_self rfl
  obtain ⟨hseg₁, hseg₂⟩ := seg_append.1 h.seg
  have herase : (l₁ ++ e :: l₂).erase e = l₁ ++ l₂ := by
    rw [erase_append_right _ he₁, erase_cons_head]
  -- the node behind `e` is not on the way to `e`
  have hn₁ : L.next e ∉ l₁ := by
    intro hmem
    rcases mem_append.1 hseg₂.next_mem with hn | hn
    · exact hdisj _ hmem _ (mem_cons_of_mem e hn) rfl
    · rw [mem_singleton.1 hn] at hmem
      exact hhead (mem_append_left _ hmem)
  have hfirst : (L.remove e).Seg head l₁ (L.next e) := by
    refine hseg₁.relink (nodup_cons.2 ⟨fun hmem => hhead (mem_append_left _ hmem), hnd₁⟩)
      (fun y _ hy => ?_) (fun y hy => ?_) ?_ ?_
    · rw [remove_next, update_of_ne hy]
    · have hne : y ≠ L.next e := fun heq => hn₁ (heq ▸ hy)
      rw [remove_prev, update_of_ne hne]
    · rw [remove_next, update_self]
    · rw [remove_prev, update_self]
  rw [herase]
  refine ⟨?_, ?_⟩
  · exact h.nodup.sublist (List.Sublist.cons_cons head
      ((List.Sublist.refl l₁).append (sublist_cons_self e l₂)))
  · cases l₂ with
    | nil =>
      rw [append_nil]
      rw [hseg₂.1] at hfirst
      exact hfirst
    | cons x l₂ =>
      obtain ⟨hx, hxe, hseg₂⟩ := hseg₂
      rw [hx] at hfirst
      refine seg_append.2 ⟨hfirst, hseg₂.congr (fun y hy => ?_) fun y hy => ?_⟩
      · -- the node before `e` is not behind it
        have hne : y ≠ L.prev e := by
          intro heq
          rcases mem_cons.1 (heq ▸ hseg₁.prev_mem) with hy' | hy'
          · exact hhead (hy' ▸ mem_append_right _ (mem_cons_of_mem e hy))
          · exact hdisj y hy' y (mem_cons_of_mem e hy) rfl
        rw [remove_next, update_of_ne hne]
      · have hne : y ≠ L.next e := by
          rw [hx]
          rintro rfl
          rcases mem_append.1 hy with hy | hy
          · exact (nodup_cons.1 hnd₂).1 hy
          · exact hhead (mem_singleton.1 hy ▸ mem_append_right _
              (mem_cons_of_mem e mem_cons_self))
        rw [remove_prev, update_of_ne hne]

theorem IsList.remove_frame {head' : α} {l' : List α} (h : L.IsList head l) (he : e ∈ l)
    (h' : L.IsList head' l') (hdisj : ∀ y ∈ head' :: l', y ∉ head :: l) :
    (L.remove e).IsList head' l' := by
  obtain ⟨l₁, l₂, rfl⟩ := append_of_mem he
  obtain ⟨hseg₁, hseg₂⟩ := seg_append.1 h.seg
  refine h'.congr (fun y hy => ?_) fun y hy => ?_
  · have hne : y ≠ L.prev e := by
      intro heq
      refine hdisj y hy ?_
      rcases mem_cons.1 (heq ▸ hseg₁.prev_mem) with hy' | hy'
      · exact hy' ▸ mem_cons_self
      · exact mem_cons_of_mem head (mem_append_left _ hy')
    rw [remove_next, update_of_ne hne]
  · have hne : y ≠ L.next e := by
      intro heq
      refine hdisj y hy ?_
      rcases mem_append.1 (heq ▸ hseg₂.next_mem) with hy' | hy'
      · exact mem_cons_of_mem head (mem_append_right _ (mem_cons_of_mem e hy'))
      · exact mem_singleton.1 hy' ▸ mem_cons_self
    rw [remove_prev, update_of_ne hne]

end Links
