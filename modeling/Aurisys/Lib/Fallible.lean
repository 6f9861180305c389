import Mathlib.Data.Nat.Basic
import Mathlib.Data.Option.Basic

/-!
# Computations that may fail and keep their state

A C function that returns `false` in the middle has done what it did before that: globals that were
set stay set, and blocks that were written stay written. So failure here does not undo anything. A
computation takes a state to a state, and it has a result or it has none.

What can be said of a computation is a condition on what it leaves when it has a result, and one on
what it leaves when it fails. `wp` is the weakest condition on the state before that makes sure of
both, and it is computed along the computation.

## Main definitions

* `Fallible`
* `Fallible.wp`
* `Fallible.Keeps` — a property of the state holds afterwards if it did before, one way or the other
* `Fallible.Sure` — there is a result where the one holds, and the other one holds afterwards
* `Fallible.Ends` — if there is a result, the other one holds afterwards
* `Fallible.Follows` — what is so after one computation is so after another one, from states that
  are related

## Main results

* `Fallible.wp_bind`, `Fallible.wp_mono`, `Fallible.Keeps.wp`
-/

namespace Aurisys

/-- A computation with a state that stays when it fails. -/
abbrev Fallible (σ α : Type) := OptionT (StateM σ) α

namespace Fallible

variable {σ α β : Type}

/-- The result, if there is one, and the state afterwards. -/
def exec (x : Fallible σ α) (s : σ) : Option α × σ := x.run.run s

/-- The result and the state afterwards, if there is a result. -/
def result (x : Fallible σ α) (s : σ) : Option (α × σ) :=
  match exec x s with
  | (some a, s') => some (a, s')
  | (none, _) => none

/-- A result that is there or is not. -/
def ofOption : Option α → Fallible σ α
  | some a => pure a
  | none => failure

/-- The caller goes on when the computation fails, and knows that it did. -/
def attempt (x : Fallible σ α) : Fallible σ (Option α) := OptionT.mk do
  let r ← x.run
  return some r

/-! ## Running -/

theorem exec_bind (x : Fallible σ α) (f : α → Fallible σ β) (s : σ) : exec (x >>= f) s =
    match exec x s with
    | (some a, s') => exec (f a) s'
    | (none, s') => (none, s') := by
  have h : exec (x >>= f) s = (fun r : Option α × σ =>
      (match r.1 with | some a => f a | none => OptionT.fail : Fallible σ β).exec
        r.2) (exec x s) := by
    rfl
  rw [h]
  rcases exec x s with ⟨_ | a, s'⟩
  · rfl
  · rfl

@[simp] theorem exec_pure (a : α) (s : σ) : exec (pure a : Fallible σ α) s = (some a, s) := rfl

@[simp] theorem exec_failure (s : σ) : exec (failure : Fallible σ α) s = (none, s) := rfl

@[simp] theorem exec_get (s : σ) : exec (get : Fallible σ σ) s = (some s, s) := rfl

@[simp] theorem exec_modify (f : σ → σ) (s : σ) :
    exec (modify f : Fallible σ PUnit) s = (some ⟨⟩, f s) := rfl

theorem exec_bind_of_some {x : Fallible σ α} {f : α → Fallible σ β} {s s' : σ} {a : α}
    (h : exec x s = (some a, s')) : exec (x >>= f) s = exec (f a) s' := by
  rw [exec_bind, h]

theorem exec_bind_of_none {x : Fallible σ α} {f : α → Fallible σ β} {s s' : σ}
    (h : exec x s = (none, s')) : exec (x >>= f) s = (none, s') := by
  rw [exec_bind, h]

theorem exec_get_bind (f : σ → Fallible σ β) (s : σ) : exec (get >>= f) s = exec (f s) s :=
  exec_bind_of_some (exec_get s)

theorem exec_guard_bind {p : Prop} [Decidable p] (f : Unit → Fallible σ β) (s : σ) :
    exec (guard p >>= f) s = if p then exec (f ()) s else (none, s) := by
  by_cases h : p
  · rw [if_pos h, guard, if_pos h]
    exact exec_bind_of_some (exec_pure () s)
  · rw [if_neg h, guard, if_neg h]
    exact exec_bind_of_none (exec_failure s)

@[simp] theorem exec_attempt (x : Fallible σ α) (s : σ) :
    exec (attempt x) s = (some (exec x s).1, (exec x s).2) := rfl

/-- What is known to have a result. -/
theorem exec_eq {x : Fallible σ α} {s : σ} {a : α} (h : (exec x s).1 = some a) :
    exec x s = (some a, (exec x s).2) := Prod.ext h rfl

theorem exec_eq_none {x : Fallible σ α} {s : σ} (h : (exec x s).1 = none) :
    exec x s = (none, (exec x s).2) := Prod.ext h rfl

/-! ## Weakest preconditions -/

/-- After the computation `Q` holds of the result and the state, or `E` of the state if it
failed. -/
def wp (x : Fallible σ α) (Q : α → σ → Prop) (E : σ → Prop) (s : σ) : Prop :=
  match exec x s with
  | (some a, s') => Q a s'
  | (none, s') => E s'

variable {x : Fallible σ α} {f : α → Fallible σ β} {Q Q' : α → σ → Prop} {E E' : σ → Prop} {s : σ}

theorem wp_bind {Q : β → σ → Prop} : wp (x >>= f) Q E s ↔ wp x (fun a => wp (f a) Q E) E s := by
  rw [wp, wp, exec_bind]
  rcases exec x s with ⟨_ | a, s'⟩
  · exact Iff.rfl
  · exact Iff.rfl

theorem wp_pure {a : α} : wp (pure a) Q E s ↔ Q a s := Iff.rfl

theorem wp_get {Q : σ → σ → Prop} : wp get Q E s ↔ Q s s := Iff.rfl

theorem wp_modify {f : σ → σ} {Q : PUnit → σ → Prop} : wp (modify f) Q E s ↔ Q ⟨⟩ (f s) := Iff.rfl

theorem wp_ofOption {o : Option α} :
    wp (ofOption o) Q E s ↔ (∀ a, o = some a → Q a s) ∧ (o = none → E s) := by
  cases o with
  | none => exact ⟨fun h => ⟨nofun, fun _ => h⟩, fun h => h.2 rfl⟩
  | some a => exact ⟨fun h => ⟨fun b hb => Option.some.inj hb ▸ h, nofun⟩, fun h => h.1 a rfl⟩

/-- What failed before is one of the results now. -/
theorem wp_attempt {Q : Option α → σ → Prop} :
    wp (attempt x) Q E s ↔ wp x (fun a => Q (some a)) (Q none) s := by
  rw [wp, wp, exec_attempt]
  rcases exec x s with ⟨_ | a, s'⟩
  · exact Iff.rfl
  · exact Iff.rfl

theorem wp_guard {p : Prop} [Decidable p] {Q : Unit → σ → Prop} :
    wp (guard p) Q E s ↔ (p → Q () s) ∧ (¬p → E s) := by
  rw [guard]
  split
  · next h => exact ⟨fun hq => ⟨fun _ => hq, fun hn => absurd h hn⟩, fun hq => hq.1 h⟩
  · next h => exact ⟨fun he => ⟨fun hp => absurd hp h, fun _ => he⟩, fun hq => hq.2 h⟩

theorem wp_ite {p : Prop} [Decidable p] {x y : Fallible σ α} :
    wp (if p then x else y) Q E s ↔ (p → wp x Q E s) ∧ (¬p → wp y Q E s) := by
  split
  · next h => exact ⟨fun hq => ⟨fun _ => hq, fun hn => absurd h hn⟩, fun hq => hq.1 h⟩
  · next h => exact ⟨fun he => ⟨fun hp => absurd hp h, fun _ => he⟩, fun hq => hq.2 h⟩

/-- The rule of consequence. -/
theorem wp_mono (h : wp x Q E s) (hQ : ∀ a s', Q a s' → Q' a s') (hE : ∀ s', E s' → E' s') :
    wp x Q' E' s := by
  rw [wp] at h ⊢
  generalize exec x s = r at h ⊢
  rcases r with ⟨_ | a, s'⟩
  · exact hE s' h
  · exact hQ a s' h

theorem wp_and (h : wp x Q E s) (h' : wp x Q' E' s) :
    wp x (fun a s' => Q a s' ∧ Q' a s') (fun s' => E s' ∧ E' s') s := by
  rw [wp] at h h' ⊢
  generalize exec x s = r at h h' ⊢
  rcases r with ⟨_ | a, s'⟩
  · exact ⟨h, h'⟩
  · exact ⟨h, h'⟩

theorem wp_of_some {a : α} {s' : σ} (h : wp x Q E s) (hx : exec x s = (some a, s')) : Q a s' := by
  rw [wp, hx] at h
  exact h

theorem wp_of_none {s' : σ} (h : wp x Q E s) (hx : exec x s = (none, s')) : E s' := by
  rw [wp, hx] at h
  exact h

/-- A computation that cannot fail has a result. -/
theorem exec_of_wp (h : wp x Q (fun _ => False) s) : ∃ a s', exec x s = (some a, s') ∧ Q a s' := by
  rw [wp] at h
  generalize exec x s = r at h ⊢
  rcases r with ⟨_ | a, s'⟩
  · exact h.elim
  · exact ⟨a, s', rfl, h⟩

/-- What the result is, when it is known both ways. -/
theorem fst_of_wp {o : Option α} (h : wp x (fun a _ => o = some a) (fun _ => o = none) s) :
    (exec x s).1 = o := by
  rw [wp] at h
  generalize exec x s = r at h ⊢
  rcases r with ⟨_ | a, s'⟩
  · exact h.symm
  · exact h.symm

theorem result_of_wp (h : wp x Q (fun _ => False) s) :
    ∃ a s', result x s = some (a, s') ∧ Q a s' := by
  obtain ⟨a, s', hex, hq⟩ := exec_of_wp h
  exact ⟨a, s', by rw [result, hex], hq⟩

theorem exec_of_result {a : α} {s' : σ} (h : result x s = some (a, s')) :
    exec x s = (some a, s') := by
  rw [result] at h
  generalize exec x s = r at h
  rcases r with ⟨_ | b, t⟩
  · exact absurd h.symm (Option.some_ne_none _)
  · obtain ⟨rfl, rfl⟩ := Prod.mk.inj (Option.some.inj h)
    rfl

/-! ## What stays -/

/-- The property holds afterwards if it held before, whether the computation has a result or not. -/
def Keeps (I : σ → Prop) (x : Fallible σ α) : Prop := ∀ s, I s → wp x (fun _ => I) I s

variable {I : σ → Prop}

theorem Keeps.pure (a : α) : Keeps I (pure a : Fallible σ α) := fun _ hs => hs

theorem Keeps.failure : Keeps I (failure : Fallible σ α) := fun _ hs => hs

theorem Keeps.get : Keeps I (get : Fallible σ σ) := fun _ hs => hs

theorem Keeps.modify {f : σ → σ} (h : ∀ s, I s → I (f s)) : Keeps I (modify f : Fallible σ PUnit) :=
  h

theorem Keeps.guard {p : Prop} [Decidable p] : Keeps I (guard p : Fallible σ Unit) :=
  fun _ hs => wp_guard.mpr ⟨fun _ => hs, fun _ => hs⟩

theorem Keeps.ofOption (o : Option α) : Keeps I (ofOption o : Fallible σ α) :=
  fun _ hs => wp_ofOption.mpr ⟨fun _ _ => hs, fun _ => hs⟩

theorem Keeps.attempt (hx : Keeps I x) : Keeps I (attempt x) := fun s hs => wp_attempt.mpr (hx s hs)

theorem Keeps.bind (hx : Keeps I x) (hf : ∀ a, Keeps I (f a)) : Keeps I (x >>= f) := by
  intro s hs
  exact wp_bind.mpr (wp_mono (hx s hs) (fun a s' hs' => hf a s' hs') fun _ => id)

theorem Keeps.ite {p : Prop} [Decidable p] {x y : Fallible σ α} (hx : Keeps I x) (hy : Keeps I y) :
    Keeps I (if p then x else y) :=
  fun s hs => wp_ite.mpr ⟨fun _ => hx s hs, fun _ => hy s hs⟩

/-- A loop keeps what each round keeps. -/
theorem Keeps.forM {ι : Type} {f : ι → Fallible σ PUnit} {l : List ι}
    (h : ∀ i ∈ l, Keeps I (f i)) : Keeps I (l.forM f) := by
  induction l with
  | nil => exact Keeps.pure _
  | cons i l ih =>
    exact Keeps.bind (h i (List.mem_cons_self ..)) fun _ =>
      ih fun k hk => h k (List.mem_cons_of_mem _ hk)

theorem wp_forM_range' {J : ℕ → σ → Prop} {f : ℕ → Fallible σ PUnit} {a n : ℕ}
    (h : ∀ i, a ≤ i → i < a + n → ∀ s, J i s → Fallible.wp (f i) (fun _ => J (i + 1)) E s)
    (hs : J a s) :
    Fallible.wp ((List.range' a n).forM f) (fun _ => J (a + n)) E s := by
  induction n generalizing a s with
  | zero => exact hs
  | succ n ih =>
    refine wp_bind.mpr (wp_mono (h a le_rfl (by omega) s hs) (fun _ t ht => ?_) fun _ => id)
    have hrest := ih (a := a + 1) (fun i h₁ h₂ => h i (by omega) (by omega)) ht
    rwa [Nat.add_right_comm, Nat.add_assoc] at hrest

/-- **A loop over a range**: what a round takes from `i` to `i + 1`, the loop takes from the
beginning to the end. -/
theorem wp_forM_range {J : ℕ → σ → Prop} {f : ℕ → Fallible σ PUnit} {n : ℕ}
    (h : ∀ i < n, ∀ s, J i s → Fallible.wp (f i) (fun _ => J (i + 1)) E s) (hs : J 0 s) :
    Fallible.wp ((List.range n).forM f) (fun _ => J n) E s := by
  have hrange := wp_forM_range' (a := 0) (n := n) (fun i _ hi => h i (by omega)) hs
  rwa [Nat.zero_add, ← List.range_eq_range'] at hrange

/-! ## What does not fail -/

/-- The computation has a result where `P` holds, and `Q` holds afterwards. -/
def Sure (P : σ → Prop) (x : Fallible σ α) (Q : σ → Prop) : Prop :=
  ∀ s, P s → wp x (fun _ => Q) (fun _ => False) s

variable {P P' R : σ → Prop}

theorem Sure.mono {Q Q' : σ → Prop} (h : Sure P x Q) (hP : ∀ s, P' s → P s) (hQ : ∀ s, Q s → Q' s) :
    Sure P' x Q' := fun s hs => wp_mono (h s (hP s hs)) (fun _ => hQ) fun _ => id

/-- Two things hold afterwards. -/
theorem Sure.both {Q Q' : σ → Prop} (h : Sure P x Q) (h' : Sure P x Q') :
    Sure P x fun s => Q s ∧ Q' s :=
  fun s hs => wp_mono (wp_and (h s hs) (h' s hs)) (fun _ _ => id) fun _ => And.left

theorem Sure.pure {Q : σ → Prop} {a : α} (h : ∀ s, P s → Q s) : Sure P (pure a : Fallible σ α) Q :=
  h

theorem Sure.modify {Q : σ → Prop} {f : σ → σ} (h : ∀ s, P s → Q (f s)) :
    Sure P (modify f : Fallible σ PUnit) Q := h

theorem Sure.guard {p : Prop} [Decidable p] (h : p) : Sure P (guard p : Fallible σ Unit) P :=
  fun _ hs => wp_guard.mpr ⟨fun _ => hs, fun hn => hn h⟩

theorem Sure.bind {Q : σ → Prop} (hx : Sure P x Q) (hf : ∀ a, Sure Q (f a) R) :
    Sure P (x >>= f) R := by
  intro s hs
  exact wp_bind.mpr (wp_mono (hx s hs) (fun a s' hs' => hf a s' hs') fun _ => id)

/-- What is done next may depend on the state. -/
theorem Sure.get_bind {Q : σ → Prop} {f : σ → Fallible σ β} (h : ∀ s, P s → Sure (· = s) (f s) Q) :
    Sure P (get >>= f) Q := fun s hs => wp_bind.mpr (wp_get.mpr (h s hs s rfl))

theorem Sure.ite {Q : σ → Prop} {p : Prop} [Decidable p] {x y : Fallible σ α} (hx : p → Sure P x Q)
    (hy : ¬p → Sure P y Q) : Sure P (if p then x else y) Q :=
  fun s hs => wp_ite.mpr ⟨fun h => hx h s hs, fun h => hy h s hs⟩

/-- A loop goes on as long as each round keeps the property. -/
theorem Sure.forM {ι : Type} {f : ι → Fallible σ PUnit} {l : List ι} (h : ∀ i ∈ l, Sure I (f i) I) :
    Sure I (l.forM f) I := by
  induction l with
  | nil => exact Sure.pure fun _ hs => hs
  | cons i l ih =>
    exact Sure.bind (h i (List.mem_cons_self ..)) fun _ =>
      ih fun k hk => h k (List.mem_cons_of_mem _ hk)

/-! ## What holds if there is a result -/

/-- `Q` holds after the computation if `P` held before it and it has a result. -/
def Ends (P : σ → Prop) (x : Fallible σ α) (Q : σ → Prop) : Prop :=
  ∀ s, P s → wp x (fun _ => Q) (fun _ => True) s

section

variable {Q : σ → Prop}

/-- Nothing is said of what follows nothing. -/
theorem Ends.trivial : Ends P x fun _ => True := by
  intro s _
  rw [wp]
  rcases exec x s with ⟨_ | a, s'⟩
  · trivial
  · trivial

theorem Ends.modify {f : σ → σ} (h : ∀ s, P s → Q (f s)) : Ends P (modify f : Fallible σ PUnit) Q :=
  h

theorem Ends.bind {R : σ → Prop} (hx : Ends P x R) (hf : ∀ a, Ends R (f a) Q) :
    Ends P (x >>= f) Q :=
  fun s hs => wp_bind.mpr (wp_mono (hx s hs) (fun a s' hs' => hf a s' hs') fun _ => id)

/-- What comes last decides, where it does so from every state. -/
theorem Ends.last (hf : ∀ a, Ends (fun _ => True) (f a) Q) : Ends P (x >>= f) Q :=
  Ends.bind .trivial hf

theorem Ends.get_bind {f : σ → Fallible σ β} (h : ∀ s, P s → Ends (· = s) (f s) Q) :
    Ends P (get >>= f) Q :=
  fun s hs => wp_bind.mpr (wp_get.mpr (h s hs s rfl))

theorem Ends.ite {p : Prop} [Decidable p] {x y : Fallible σ α} (hx : p → Ends P x Q)
    (hy : ¬p → Ends P y Q) :
    Ends P (if p then x else y) Q := fun s hs => wp_ite.mpr ⟨fun h => hx h s hs, fun h => hy h s hs⟩

theorem Ends.mono {Q' : σ → Prop} (h : Ends P x Q) (hP : ∀ s, P' s → P s) (hQ : ∀ s, Q s → Q' s) :
    Ends P' x Q' := fun s hs => wp_mono (h s (hP s hs)) (fun _ => hQ) fun _ => id

theorem Keeps.ends (h : Keeps I x) : Ends I x I :=
  fun s hs => wp_mono (h s hs) (fun _ _ => id) fun _ _ => True.intro

end

/-! ## Two runs -/

variable {y : Fallible σ α} {L M N : σ → σ → Prop}

/-- From states that `L` relates: where `x` has a result `y` has the same one, and `M` relates what
they leave. -/
def Follows (L : σ → σ → Prop) (x y : Fallible σ α) (M : σ → σ → Prop) : Prop :=
  ∀ s t, L s t → ∀ a s', exec x s = (some a, s') → ∃ t', exec y t = (some a, t') ∧ M s' t'

theorem Follows.mono {L' M' : σ → σ → Prop} (h : Follows L x y M) (hL : ∀ s t, L' s t → L s t)
    (hM : ∀ s t, M s t → M' s t) : Follows L' x y M' := by
  intro s t hst a s' hx
  obtain ⟨t', hy, hM'⟩ := h s t (hL s t hst) a s' hx
  exact ⟨t', hy, hM s' t' hM'⟩

theorem Follows.pure {a : α} (h : ∀ s t, L s t → M s t) :
    Follows L (pure a : Fallible σ α) (pure a) M := by
  intro s t hst b s' hx
  obtain ⟨ha, rfl⟩ := Prod.mk.inj hx
  obtain rfl := Option.some.inj ha
  exact ⟨t, rfl, h _ _ hst⟩

theorem Follows.modify {f g : σ → σ} (h : ∀ s t, L s t → M (f s) (g t)) :
    Follows L (modify f : Fallible σ PUnit) (modify g) M := by
  intro s t hst b s' hx
  obtain ⟨-, rfl⟩ := Prod.mk.inj hx
  exact ⟨g t, rfl, h _ _ hst⟩

theorem exec_guard {p : Prop} [Decidable p] (s : σ) :
    exec (guard p : Fallible σ Unit) s = (if p then some () else none, s) := by
  rw [guard]
  split
  · rfl
  · rfl

theorem Follows.guard {p : Prop} [Decidable p] :
    Follows L (guard p : Fallible σ Unit) (guard p) L := by
  intro s t hst b s' hx
  rw [exec_guard] at hx ⊢
  obtain ⟨hp, rfl⟩ := Prod.mk.inj hx
  exact ⟨t, by rw [hp], hst⟩

theorem Follows.bind {f g : α → Fallible σ β} (hx : Follows L x y M)
    (hf : ∀ a, Follows M (f a) (g a) N) :
    Follows L (x >>= f) (y >>= g) N := by
  intro s t hst b s'' hrun
  rw [exec_bind] at hrun
  cases h : exec x s with
  | mk r s' =>
    rw [h] at hrun
    cases r with
    | none => exact absurd (congrArg Prod.fst hrun).symm (Option.some_ne_none _)
    | some a =>
      obtain ⟨t', hy, hM⟩ := hx s t hst a s' h
      obtain ⟨t'', hg, hN⟩ := hf a s' t' hM b s'' hrun
      exact ⟨t'', by rw [exec_bind_of_some hy, hg], hN⟩

/-- It is enough to look at two states at a time. -/
theorem Follows.of_states (h : ∀ s t, L s t → Follows (fun s' t' => s' = s ∧ t' = t) x y M) :
    Follows L x y M :=
  fun s t hst => h s t hst s t ⟨rfl, rfl⟩

/-- What is done next may depend on the two states. -/
theorem Follows.get_bind {f g : σ → Fallible σ β}
    (h : ∀ s t, L s t → Follows (fun s' t' => s' = s ∧ t' = t) (f s) (g t) M) :
    Follows L (get >>= f) (get >>= g) M := by
  intro s t hst b s' hrun
  rw [exec_get_bind] at hrun ⊢
  exact h s t hst s t ⟨rfl, rfl⟩ b s' hrun

/-- The two take the same branch. -/
theorem Follows.ite {p q : Prop} [Decidable p] [Decidable q] {x x' y y' : Fallible σ α}
    (hpq : p ↔ q)
    (hx : p → Follows L x x' M) (hy : ¬p → Follows L y y' M) :
    Follows L (if p then x else y) (if q then x' else y') M := by
  by_cases h : p
  · rw [if_pos h, if_pos (hpq.mp h)]
    exact hx h
  · rw [if_neg h, if_neg fun hq => h (hpq.mpr hq)]
    exact hy h

/-- A loop goes on as long as each round keeps the states related. -/
theorem Follows.forM {ι : Type} {f g : ι → Fallible σ PUnit} {l : List ι}
    (h : ∀ i ∈ l, Follows L (f i) (g i) L) :
    Follows L (l.forM f) (l.forM g) L := by
  induction l with
  | nil => exact Follows.pure fun _ _ => id
  | cons i l ih =>
    exact Follows.bind (h i (List.mem_cons_self ..)) fun _ => ih fun k hk =>
      h k (List.mem_cons_of_mem _ hk)

end Fallible

end Aurisys
