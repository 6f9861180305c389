import Mathlib.Computability.StateTransition

/-!
# Loops that go on until nothing is left

The body of a loop is a function to `Option`: the next state, or nothing once the loop is over. If
each turn brings a measure down, except in some states that the loop never leaves again, then the
loop comes to an end just when it gets into none of these.

## Main definitions

* `Steps.runFor` — so many turns at most
* `Steps.Descends` — what a turn does to the measure

## Main results

* `Steps.Descends.dom_iff`, `Steps.Descends.runFor_none` — when a loop comes to an end
* `Steps.invariant` — what each turn keeps holds to the end
-/

namespace Aurisys

namespace Steps

open StateTransition Relation

variable {σ : Type*} {f : σ → Option σ} {μ : σ → ℕ} {stuck : σ → Prop} {a b c : σ} {k : ℕ}

/-- The last state, if it is there after `k` turns. -/
def runFor (f : σ → Option σ) : ℕ → σ → Option σ
  | 0, _ => none
  | k + 1, a =>
    match f a with
    | none => some a
    | some b => runFor f k b

theorem runFor_of_none (h : f a = none) : runFor f (k + 1) a = some a := by rw [runFor, h]

theorem runFor_of_some (h : f a = some b) : runFor f (k + 1) a = runFor f k b := by rw [runFor, h]

theorem mem_eval_of_runFor (h : runFor f k a = some b) : b ∈ eval f a := by
  induction k generalizing a with
  | zero => exact absurd h (by simp [runFor])
  | succ k ih =>
    cases hf : f a with
    | none =>
      rw [runFor_of_none hf] at h
      obtain rfl := Option.some.inj h
      exact mem_eval.mpr ⟨ReflTransGen.refl, hf⟩
    | some a' =>
      rw [runFor_of_some hf] at h
      rw [reaches_eval (ReflTransGen.single hf)]
      exact ih h

/-- **What each turn keeps holds to the end.** -/
theorem invariant {p : σ → Prop} (hstep : ∀ a b, p a → f a = some b → p b) (ha : p a)
    (h : Reaches f a b) :
    p b := by
  induction h with
  | refl => exact ha
  | tail _ hf ih => exact hstep _ _ ih hf

/-- A state that is reached is the first one, or it is reached from the second one. -/
theorem reaches_iff (h : f a = some b) : Reaches f a c ↔ c = a ∨ Reaches f b c := by
  constructor
  · intro hc
    rcases ReflTransGen.cases_head hc with rfl | ⟨b', hb, hc⟩
    · exact Or.inl rfl
    · obtain rfl : b = b' := Option.some.inj (h.symm.trans hb)
      exact Or.inr hc
  · rintro (rfl | hc)
    · exact ReflTransGen.refl
    · exact ReflTransGen.head h hc

/-- **What a turn does to the measure**: it goes down, or the loop is in a state that it does not
leave. -/
structure Descends (f : σ → Option σ) (μ : σ → ℕ) (stuck : σ → Prop) : Prop where
  down : ∀ {a b}, f a = some b → ¬stuck a → μ b < μ a
  stays : ∀ {a}, stuck a → ∃ b, f a = some b ∧ stuck b

namespace Descends

variable (h : Descends f μ stuck)

include h

/-- A loop that is stuck does not come to an end. -/
theorem not_dom (ha : stuck a) : ¬(eval f a).Dom := by
  intro hdom
  obtain ⟨hreach, hnone⟩ := mem_eval.mp (Part.get_mem hdom)
  have hstuck : stuck ((eval f a).get hdom) := by
    refine invariant (fun a b ha hf => ?_) ha hreach
    obtain ⟨b', hb', hst⟩ := h.stays ha
    obtain rfl : b' = b := Option.some.inj (hb'.symm.trans hf)
    exact hst
  obtain ⟨b, hb, -⟩ := h.stays hstuck
  exact absurd (hnone.symm.trans hb) (by simp)

/-- Enough turns bring the loop to its end, or it gets stuck. -/
theorem runFor (hk : μ a < k) : (∃ b, runFor f k a = some b) ∨ ∃ b, Reaches f a b ∧ stuck b := by
  induction k generalizing a with
  | zero => exact absurd hk (Nat.not_lt_zero _)
  | succ k ih =>
    by_cases ha : stuck a
    · exact Or.inr ⟨a, ReflTransGen.refl, ha⟩
    cases hf : f a with
    | none => exact Or.inl ⟨a, runFor_of_none hf⟩
    | some b =>
      rw [runFor_of_some hf]
      have hdown := h.down hf ha
      rcases ih (a := b) (by omega) with hrun | ⟨c, hc, hst⟩
      · exact Or.inl hrun
      · exact Or.inr ⟨c, ReflTransGen.head hf hc, hst⟩

/-- **A loop comes to its end just when it gets into no state that it cannot leave.** -/
theorem dom_iff : (eval f a).Dom ↔ ∀ b, Reaches f a b → ¬stuck b := by
  constructor
  · intro hdom b hb hst
    rw [reaches_eval hb] at hdom
    exact h.not_dom hst hdom
  · intro hno
    rcases h.runFor (Nat.lt_succ_self (μ a)) with ⟨b, hb⟩ | ⟨b, hb, hst⟩
    · exact (mem_eval_of_runFor hb).1
    · exact absurd hst (hno b hb)

/-- With enough turns, the loop that is not over is stuck. -/
theorem runFor_none (hk : μ a < k) : Steps.runFor f k a = none ↔ ∃ b, Reaches f a b ∧ stuck b := by
  constructor
  · intro hnone
    rcases h.runFor hk with ⟨b, hb⟩ | hst
    · exact absurd (hnone.symm.trans hb) (by simp)
    · exact hst
  · rintro ⟨b, hb, hst⟩
    cases hrun : Steps.runFor f k a with
    | none => rfl
    | some c =>
      have hdom : (eval f a).Dom := (mem_eval_of_runFor hrun).1
      rw [reaches_eval hb] at hdom
      exact absurd hdom (h.not_dom hst)

end Descends

end Steps

end Aurisys
