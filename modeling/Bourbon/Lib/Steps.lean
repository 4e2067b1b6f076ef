import Mathlib.Data.List.Basic

/-!
# Runs of a deterministic system

A system is a partial step function: `step s a` is the state after action `a`, or `none` if the
action is not possible in `s`.  A run performs a list of actions.  `Meets` says that every action of
a run satisfies a condition in the state in which it is taken.

* `invariant` : what every such step preserves holds in every state reached;
* `exists_run` : a run whose steps are all possible ends.
-/

namespace Steps

variable {σ α : Type*} (step : σ → α → Option σ)

/-- The state after a list of actions. -/
def run : σ → List α → Option σ
  | s, [] => some s
  | s, a :: as => (step s a).bind fun s' => run s' as

/-- Every action is taken in a state in which it satisfies `ok`. -/
def Meets (ok : σ → α → Prop) : σ → List α → Prop
  | _, [] => True
  | s, a :: as => ok s a ∧ ∀ s', step s a = some s' → Meets ok s' as

/-- Whether a run meets a decidable condition can be computed. -/
instance decidableMeets (ok : σ → α → Prop) [∀ s a, Decidable (ok s a)] :
    ∀ s as, Decidable (Meets step ok s as)
  | _, [] => isTrue trivial
  | s, a :: as =>
    match h : step s a with
    | none => decidable_of_iff (ok s a)
        ⟨fun ha => ⟨ha, fun s' hs => absurd (h.symm.trans hs) (Option.some_ne_none s').symm⟩,
          And.left⟩
    | some s₁ =>
      haveI := decidableMeets ok s₁ as
      decidable_of_iff (ok s a ∧ Meets step ok s₁ as)
        ⟨fun ha => ⟨ha.1, fun _ hs => Option.some.inj (h.symm.trans hs) ▸ ha.2⟩,
          fun hm => ⟨hm.1, hm.2 s₁ h⟩⟩

variable {step} {ok : σ → α → Prop} {inv : σ → Prop} {s s' : σ} {as : List α}

theorem meets_true (s : σ) (as : List α) : Meets step (fun _ _ => True) s as := by
  induction as generalizing s with
  | nil => trivial
  | cons a as ih => exact ⟨trivial, fun s' _ => ih s'⟩

theorem meets_of_forall {p : α → Prop} (h : ∀ a ∈ as, p a) (s : σ) :
    Meets step (fun _ a => p a) s as := by
  induction as generalizing s with
  | nil => trivial
  | cons a as ih =>
    exact ⟨h a List.mem_cons_self, fun s' _ => ih (fun b hb => h b (List.mem_cons_of_mem a hb)) s'⟩

theorem Meets.mono {ok' : σ → α → Prop} (h : Meets step ok s as)
    (himp : ∀ s a, ok s a → ok' s a) : Meets step ok' s as := by
  induction as generalizing s with
  | nil => trivial
  | cons a as ih => exact ⟨himp s a h.1, fun s' hs' => ih (h.2 s' hs')⟩

theorem run_append (s : σ) (as bs : List α) :
    run step s (as ++ bs) = (run step s as).bind fun s' => run step s' bs := by
  induction as generalizing s with
  | nil => rfl
  | cons a as ih =>
    rw [List.cons_append, run, run, Option.bind_assoc]
    exact congrArg _ (funext ih)

theorem meets_append (s : σ) (as bs : List α) :
    Meets step ok s (as ++ bs) ↔
      Meets step ok s as ∧ ∀ s', run step s as = some s' → Meets step ok s' bs := by
  induction as generalizing s with
  | nil =>
    refine ⟨fun h => ⟨trivial, fun s' hs' => ?_⟩, fun h => h.2 s rfl⟩
    rw [run, Option.some.injEq] at hs'
    exact hs' ▸ h
  | cons a as ih =>
    rw [List.cons_append, Meets, Meets]
    constructor
    · rintro ⟨ha, hrest⟩
      refine ⟨⟨ha, fun s₁ hs₁ => ((ih s₁).1 (hrest s₁ hs₁)).1⟩, fun s' hs' => ?_⟩
      rw [run] at hs'
      obtain ⟨s₁, hs₁, hrun⟩ := Option.bind_eq_some_iff.1 hs'
      exact ((ih s₁).1 (hrest s₁ hs₁)).2 s' hrun
    · rintro ⟨⟨ha, hrest⟩, hlast⟩
      refine ⟨ha, fun s₁ hs₁ => (ih s₁).2 ⟨hrest s₁ hs₁, fun s' hs' => hlast s' ?_⟩⟩
      rw [run, hs₁, Option.bind_some, hs']

/-- **Progress rule.** -/
theorem exists_run (hstep : ∀ s a, inv s → ok s a → ∃ s', step s a = some s' ∧ inv s') (h₀ : inv s)
    (hok : Meets step ok s as) : ∃ s', run step s as = some s' ∧ inv s' := by
  induction as generalizing s with
  | nil => exact ⟨s, rfl, h₀⟩
  | cons a as ih =>
    obtain ⟨s₁, hs₁, h₁⟩ := hstep s a h₀ hok.1
    obtain ⟨s', hs', h'⟩ := ih h₁ (hok.2 s₁ hs₁)
    exact ⟨s', by rw [run, hs₁, Option.bind_some, hs'], h'⟩

/-- **Invariant rule.** -/
theorem invariant (hstep : ∀ s a s', inv s → ok s a → step s a = some s' → inv s') (h₀ : inv s)
    (hok : Meets step ok s as) (hrun : run step s as = some s') : inv s' := by
  induction as generalizing s with
  | nil =>
    rw [run, Option.some.injEq] at hrun
    exact hrun ▸ h₀
  | cons a as ih =>
    obtain ⟨ha, hrest⟩ := hok
    rw [run] at hrun
    obtain ⟨s₁, hs₁, hrun⟩ := Option.bind_eq_some_iff.1 hrun
    exact ih (hstep s a s₁ h₀ ha hs₁) (hrest s₁ hs₁) hrun

end Steps
