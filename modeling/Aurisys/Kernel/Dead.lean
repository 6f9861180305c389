import Aurisys.Kernel.Table
import Mathlib.Algebra.BigOperators.Intervals
import Mathlib.Data.List.Perm.Basic

/-!
# The dead stay dead

A process that was killed or has exited should not come back before its slot is used again, and its
parent should hear of it once.

The state of a task is written in many places, and not all of them look at what it was. `block`,
`resume_after_exec` and `become_first` set the state of the current task, which a signal may have
killed while it was in the kernel; `switch_to` sets the state of a task that was chosen before it
was killed; `exit` and a fault tell the parent again when a zombie goes on running. `Safe` says that
none of this happens. Then the dead do stay dead, and the notes are exact: the lists of notes name
each slot once at most, and no process that has not ended, so that there is always room.

## Main definitions

* `Life` — a change in which nobody comes back, and the notes tell who ended
* `Orderly` — the invariant
* `Machine.Safe`, `Machine.Run`

## Main results

* `Machine.dead_stay_dead`
-/

namespace Aurisys

open Paging

/-- The process is a zombie, or will be. -/
def TaskState.Dead (s : TaskState) : Prop := s = .zombie ∨ s = .killed

/-- The end of the process, if there was one, has been announced. -/
def TaskState.Ended (s : TaskState) : Prop := s = .zombie ∨ s = .free

instance (s : TaskState) : Decidable s.Dead := inferInstanceAs (Decidable (_ ∨ _))

instance (s : TaskState) : Decidable s.Ended := inferInstanceAs (Decidable (_ ∨ _))

/-- How many notes there are about the process with a number. -/
def Task.notesAbout (t : Task) (pid : ℕ) : ℕ := (t.done.map Note.pid).count pid

/-- Where the last element moves into the hole, the list is what is left. -/
theorem hole_perm {α : Type} {l : List α} {i : ℕ} {a : α} (hi : l[i]? = some a) :
    (a :: (l.set i (l.getLast?.getD a)).dropLast).Perm l := by
  rcases List.eq_nil_or_concat' l with rfl | ⟨l', x, rfl⟩
  · cases hi
  · have hlen : i < (l' ++ [x]).length := (List.getElem?_eq_some_iff.mp hi).1
    rw [List.length_append, List.length_singleton] at hlen
    rw [List.getLast?_append, List.getLast?_singleton, Option.some_or, Option.getD_some]
    rcases Nat.lt_succ_iff_lt_or_eq.mp hlen with h | rfl
    · rw [List.getElem?_append_left h] at hi
      obtain ⟨_, rfl⟩ := List.getElem?_eq_some_iff.mp hi
      rw [List.set_append_left _ _ h, List.dropLast_concat]
      calc List.Perm (l'[i] :: l'.set i x) (l'[i] :: x :: l'.eraseIdx i) :=
            (List.set_perm_cons_eraseIdx h x).cons _
        List.Perm _ (x :: l'[i] :: l'.eraseIdx i) := .swap _ _ _
        List.Perm _ (x :: l') := (List.getElem_cons_eraseIdx_perm h).cons x
        List.Perm _ (l' ++ [x]) := (List.perm_append_singleton x l').symm
    · rw [List.getElem?_concat_length] at hi
      obtain rfl := Option.some.inj hi
      rw [List.set_append_right _ _ le_rfl, Nat.sub_self, List.set_cons_zero, List.dropLast_concat]
      exact (List.perm_append_singleton x l').symm
open TaskState

/-- The state of a task changes, and it neither comes back nor ends. -/
structure Soft (s s' : TaskState) : Prop where
  /-- A free slot stays free. -/
  free : s = .free → s' = .free
  /-- What is dead does not run again. -/
  dead : s.Dead → s'.Dead ∨ s' = .free
  /-- Nothing ends. -/
  ended : s'.Ended ↔ s.Ended

theorem Soft.refl (s : TaskState) : Soft s s := ⟨id, Or.inl, Iff.rfl⟩

/-- Between states of the living anything goes. -/
theorem Soft.of_alive {s s' : TaskState} (h : ¬s.Dead ∧ s ≠ .free) (h' : ¬s'.Ended) :
    Soft s s' := by
  refine ⟨fun hf => absurd hf h.2, fun hd => absurd hd h.1, fun he => absurd he h', fun he => ?_⟩
  rcases he with he | he
  · exact absurd (Or.inl he) h.1
  · exact absurd he h.2

theorem Soft.ready {s : TaskState} (h : ¬s.Dead ∧ s ≠ .free) : Soft s .ready :=
  .of_alive h (by decide)

theorem Soft.running {s : TaskState} (h : ¬s.Dead ∧ s ≠ .free) : Soft s .running :=
  .of_alive h (by decide)

theorem Soft.blocked {s : TaskState} (h : ¬s.Dead ∧ s ≠ .free) : Soft s .blocked :=
  .of_alive h (by decide)

theorem Soft.wake {s s' : TaskState} (h : s' = s ∨ s = .blocked ∧ s' = .ready) : Soft s s' := by
  rcases h with rfl | ⟨rfl, rfl⟩
  · exact .refl _
  · exact .ready ⟨by decide, by decide⟩

namespace Kernel

variable {H : Type} {k k' k'' : Kernel H} {i j p : Fin kMaxTask}

/-! ## Lives -/

/-- What task `p` is told of the process in slot `i` by a change: its end, if it is the parent. -/
def told (k k' : Kernel H) (p i : Fin kMaxTask) : ℕ :=
  if ¬(k.tasks i).state.Ended ∧ (k'.tasks i).state.Ended ∧ (k.tasks i).ppid = p + 1 then 1 else 0

/-- Nobody comes back, and whoever ends is announced to its parent. -/
structure Life (k k' : Kernel H) : Prop where
  /-- Nobody has another parent. -/
  ppid : ∀ i, (k'.tasks i).ppid = (k.tasks i).ppid
  /-- A free slot stays free. -/
  free : ∀ i, (k.tasks i).state = .free → (k'.tasks i).state = .free
  /-- What is dead does not run again, -/
  dead : ∀ i, (k.tasks i).state.Dead → (k'.tasks i).state.Dead ∨ (k'.tasks i).state = .free
  /-- and what has ended stays so. -/
  ended : ∀ i, (k.tasks i).state.Ended → (k'.tasks i).state.Ended
  /-- A parent is told of each child that ends, once, -/
  note : ∀ p, (k'.tasks p).state ≠ .free → ∀ i : Fin kMaxTask,
    (k'.tasks p).notesAbout (i + 1) = (k.tasks p).notesAbout (i + 1) + told k k' p i
  /-- and of nobody else. -/
  alien : ∀ p, (k'.tasks p).state ≠ .free → ∀ q : ℕ, (∀ i : Fin kMaxTask, q ≠ i + 1) →
    (k'.tasks p).notesAbout q = (k.tasks p).notesAbout q

/-- The tasks change their states, and nobody ends. -/
theorem Life.of_soft (hp : ∀ i, (k'.tasks i).ppid = (k.tasks i).ppid)
    (hd : ∀ i, (k'.tasks i).done = (k.tasks i).done)
    (hs : ∀ i, Soft (k.tasks i).state (k'.tasks i).state) : Life k k' := by
  have hnote : ∀ p q, (k'.tasks p).notesAbout q = (k.tasks p).notesAbout q := fun p q => by
    rw [Task.notesAbout, Task.notesAbout, hd]
  refine ⟨hp, fun i => (hs i).free, fun i => (hs i).dead, fun i => (hs i).ended.mpr,
    fun p _ i => ?_, fun p _ q _ => hnote p q⟩
  rw [hnote, told, if_neg, add_zero]
  rintro ⟨h, h', -⟩
  exact h ((hs i).ended.mp h')

theorem Life.refl (k : Kernel H) : Life k k :=
  .of_soft (fun _ => rfl) (fun _ => rfl) fun _ => .refl _

theorem Life.trans (h : Life k k') (h' : Life k' k'') : Life k k'' := by
  have hin : ∀ p, (k''.tasks p).state ≠ .free → (k'.tasks p).state ≠ .free :=
    fun p hp hf => hp (h'.free p hf)
  refine ⟨fun i => (h'.ppid i).trans (h.ppid i), fun i hf => h'.free i (h.free i hf),
    fun i hd => ?_, fun i he => h'.ended i (h.ended i he), fun p hp i => ?_, fun p hp q hq => ?_⟩
  · rcases h.dead i hd with hd | hf
    · exact h'.dead i hd
    · exact Or.inr (h'.free i hf)
  · -- A process that ends in one of the two changes does not end in the other.
    have htold : told k k'' p i = told k k' p i + told k' k'' p i := by
      have h₁ := h.ended i
      have h₂ := h'.ended i
      simp only [told, h.ppid]
      by_cases e : (k.tasks i).state.Ended
      · simp only [e, h₁ e, not_true, false_and, if_false]
      · by_cases e' : (k'.tasks i).state.Ended
        · simp only [e, e', h₂ e', not_true, not_false_eq_true, true_and, false_and, if_false,
            add_zero]
        · simp only [e, e', not_false_eq_true, true_and, false_and, if_false, zero_add]
    rw [h'.note p hp, h.note p (hin p hp), htold, add_assoc]
  · rw [h'.alien p hp q hq, h.alien p (hin p hp) q hq]

theorem Wakes.life (h : Wakes k k') : Life k k' :=
  .of_soft h.ppid h.done fun i => .wake (h.state i)

theorem life_setTask {t : Task} (hp : t.ppid = (k.tasks i).ppid) (hd : t.done = (k.tasks i).done)
    (hs : Soft (k.tasks i).state t.state) : Life k (k.setTask i t) := by
  have htask : ∀ j, (k.setTask i t).tasks j = if j = i then t else k.tasks j := fun j => by
    rw [setTask_tasks, Function.update_apply]
  refine .of_soft (fun j => ?_) (fun j => ?_) fun j => ?_ <;> rw [htask] <;> split
  · next hj => rw [hj, hp]
  · rfl
  · next hj => rw [hj, hd]
  · rfl
  · next hj =>
    rw [hj]
    exact hs
  · exact .refl _

/-! ## The notes -/

/-- The notes of a task in use name processes that have ended, and each once. -/
structure Orderly (k : Kernel H) : Prop where
  /-- The table is in order. -/
  table : Table k
  /-- Nobody is its own parent. -/
  ppid : ∀ i, (k.tasks i).state ≠ .free → (k.tasks i).ppid ≠ i + 1
  /-- There is one note about a process at most, -/
  once : ∀ p, (k.tasks p).state ≠ .free → ∀ q, (k.tasks p).notesAbout q ≤ 1
  /-- none about what is no process, -/
  slot : ∀ p, (k.tasks p).state ≠ .free → ∀ q : ℕ, (∀ i : Fin kMaxTask, q ≠ i + 1) →
    (k.tasks p).notesAbout q = 0
  /-- and none about one that has not ended. -/
  fresh : ∀ p, (k.tasks p).state ≠ .free → ∀ i, ¬(k.tasks i).state.Ended →
    (k.tasks p).notesAbout (i + 1) = 0

theorem Orderly.life (h : Orderly k) (ht : Table k') (hl : Life k k') : Orderly k' := by
  have hin : ∀ p, (k'.tasks p).state ≠ .free → (k.tasks p).state ≠ .free :=
    fun p hp hf => hp (hl.free p hf)
  refine ⟨ht, fun i hi => ?_, fun p hp q => ?_, fun p hp q hq => ?_, fun p hp i hi => ?_⟩
  · rw [hl.ppid]
    exact h.ppid i (hin i hi)
  · by_cases hq : ∃ i : Fin kMaxTask, q = i + 1
    · obtain ⟨i, rfl⟩ := hq
      rw [hl.note p hp, told]
      split
      · next he =>
        rw [h.fresh p (hin p hp) i he.1]
      · exact h.once p (hin p hp) _
    · rw [hl.alien p hp q (not_exists.mp hq)]
      exact h.once p (hin p hp) q
  · rw [hl.alien p hp q hq]
    exact h.slot p (hin p hp) q hq
  · have hi' : ¬(k.tasks i).state.Ended := fun he => hi (hl.ended i he)
    rw [hl.note p hp, h.fresh p (hin p hp) i hi', told, if_neg fun he => hi he.2.1]

/-- **Room.** As long as somebody has not ended there is room for one more note. -/
theorem Orderly.room (h : Orderly k) (hp : (k.tasks p).state ≠ .free)
    (hi : ¬(k.tasks i).state.Ended) : (k.tasks p).done.length < kMaxTask := by
  set l := (k.tasks p).done.map Note.pid with hl
  have hnodup : l.Nodup := List.nodup_iff_count_le_one.mpr (h.once p hp)
  -- The notes are about slots, and slot `i` is not among them.
  have hsub : l.toFinset ⊆ (Finset.univ.erase i).image fun j : Fin kMaxTask => (j : ℕ) + 1 := by
    intro q hq
    have hpos : 0 < (k.tasks p).notesAbout q := List.count_pos_iff.mpr (List.mem_toFinset.mp hq)
    by_cases hslot : ∃ j : Fin kMaxTask, q = j + 1
    · obtain ⟨j, rfl⟩ := hslot
      refine Finset.mem_image.mpr ⟨j, Finset.mem_erase.mpr ⟨?_, Finset.mem_univ j⟩, rfl⟩
      rintro rfl
      have := h.fresh p hp j hi
      omega
    · have := h.slot p hp q (not_exists.mp hslot)
      omega
  have hcard := (Finset.card_le_card hsub).trans Finset.card_image_le
  rw [List.toFinset_card_of_nodup hnodup, Finset.card_erase_of_mem (Finset.mem_univ i),
    Finset.card_univ, Fintype.card_fin, hl, List.length_map] at hcard
  exact lt_of_le_of_lt hcard (by decide)

theorem notesAbout_append (t : Task) (n : Note) (q : ℕ) :
    (t.done.map Note.pid ++ [n.pid]).count q = t.notesAbout q + if q = n.pid then 1 else 0 := by
  rw [List.count_append, List.count_singleton, Task.notesAbout]
  simp only [beq_iff_eq, eq_comm (a := q)]

theorem find_congr (hp : ∀ j, (k'.tasks j).pid = (k.tasks j).pid)
    (hf : ∀ j, (k'.tasks j).state = .free ↔ (k.tasks j).state = .free) (pid : ℕ) :
    k'.find pid = k.find pid := by
  rw [find, find]
  refine congrArg (fun f => List.find? f (List.finRange kMaxTask)) (funext fun j => ?_)
  simp only [hp, ne_eq, hf]

theorem Wakes.free_iff (h : Wakes k k') (j : Fin kMaxTask) :
    (k'.tasks j).state = .free ↔ (k.tasks j).state = .free := by
  rcases h.state j with he | ⟨he, he'⟩
  · rw [he]
  · rw [he, he']
    exact ⟨TaskState.noConfusion, TaskState.noConfusion⟩

/-- **The note.** If the process has not ended before, its parent hears of it; if there is no
parent, nobody does. -/
theorem Dies.notes (hd : Dies k i k') (h : Orderly k) (hi : (k.tasks i).state ≠ .free)
    (hz : (k.tasks i).state ≠ .zombie ∨ k.find (k.tasks i).ppid = none)
    (q : ℕ) : (k'.tasks p).notesAbout q
      = (k.tasks p).notesAbout q + if k.find (k.tasks i).ppid = some p ∧ q = i + 1 then 1
      else 0 := by
  obtain ⟨t, k₁, ht, hpt, hdt, hst, hw, hw'⟩ := hd
  have htask : ∀ j, (k.setTask i t).tasks j = if j = i then t else k.tasks j := fun j => by
    rw [setTask_tasks, Function.update_apply]
  -- What the note is written from is as it was before.
  have hpid : ∀ j, (k₁.tasks j).pid = (k.tasks j).pid := fun j => by
    rw [hw.pid, htask]
    split
    · next hj => rw [hj, ht]
    · rfl
  have hppid : (k₁.tasks i).ppid = (k.tasks i).ppid := by rw [hw.ppid, htask, if_pos rfl, hpt]
  have hdone : ∀ j, (k₁.tasks j).done = (k.tasks j).done := fun j => by
    rw [hw.done, htask]
    split
    · next hj => rw [hj, hdt]
    · rfl
  have hfree : ∀ j, (k₁.tasks j).state = .free ↔ (k.tasks j).state = .free := fun j => by
    rw [hw.free_iff, htask]
    split
    · next hj =>
      rw [hst, hj]
      exact ⟨fun hf => TaskState.noConfusion hf, fun hf => absurd hf hi⟩
    · exact Iff.rfl
  have hsame : (k₁.tasks p).notesAbout q = (k.tasks p).notesAbout q := by
    rw [Task.notesAbout, Task.notesAbout, hdone]
  have hend : (k'.tasks p).notesAbout q = ((k₁.noted i).tasks p).notesAbout q := by
    rw [Task.notesAbout, Task.notesAbout, hw'.done]
  rw [hend, noted, hppid, find_congr hpid hfree]
  cases hf : k.find (k.tasks i).ppid with
  | none =>
    rw [if_neg (fun h => Option.some_ne_none _ h.1.symm), add_zero]
    exact hsame
  | some p₀ =>
    have hz' := hz.resolve_right (by rw [hf]; exact Option.some_ne_none _)
    obtain ⟨hp₀, hppid₀⟩ := h.table.find_iff.mp hf
    have hne : p₀ ≠ i := by
      rintro rfl
      exact h.ppid p₀ hi hppid₀
    have hroom := h.room hp₀ (not_or.mpr ⟨hz', hi⟩)
    have hfull : ¬(p₀ = i ∨ kMaxTask ≤ (k₁.tasks p₀).done.length) := by
      rw [hdone]
      exact not_or.mpr ⟨hne, not_le.mpr hroom⟩
    dsimp only
    rw [if_neg hfull, setTask_tasks]
    by_cases hpp : p = p₀
    · subst hpp
      have hn : (noteOf (k₁.tasks i)).pid = i + 1 := (hpid i).trans (h.table.pid i hi)
      rw [Function.update_self, Task.notesAbout, List.map_append, List.map_singleton,
        notesAbout_append, hsame]
      simp only [hn, true_and]
    · rw [Function.update_of_ne hpp, if_neg (fun he => hpp (Option.some.inj he.1).symm), add_zero,
        hsame]

/-- **The end of a process.** -/
theorem Dies.life (hd : Dies k i k') (h : Orderly k) (hi : (k.tasks i).state ≠ .free)
    (hz : (k.tasks i).state ≠ .zombie ∨ k.find (k.tasks i).ppid = none) : Life k k' := by
  have hin : ∀ p, (k'.tasks p).state ≠ .free → (k.tasks p).state ≠ .free :=
    fun p hp hf => hp ((hd.calm hi).free p hf)
  have hself := hd.self
  have hother : ∀ j, j ≠ i → Soft (k.tasks j).state (k'.tasks j).state :=
    fun j hj => .wake (hd.other hj)
  refine ⟨hd.ppid, (hd.calm hi).free, fun j hdead => ?_, fun j he => ?_, fun p hp j => ?_,
    fun p hp q hq => ?_⟩
  · by_cases hj : j = i
    · rw [hj]
      exact Or.inl (Or.inl hself)
    · exact (hother j hj).dead hdead
  · by_cases hj : j = i
    · rw [hj]
      exact Or.inl hself
    · exact (hother j hj).ended.mpr he
  · rw [hd.notes h hi hz, told]
    congr 1
    refine if_congr ?_ rfl rfl
    constructor
    · rintro ⟨hf, hj⟩
      obtain rfl : j = i := Fin.ext (by omega)
      have hz' := hz.resolve_right (by rw [hf]; exact Option.some_ne_none _)
      exact ⟨not_or.mpr ⟨hz', hi⟩, Or.inl hself, (h.table.find_iff.mp hf).2⟩
    · rintro ⟨he, he', hpp⟩
      obtain rfl : j = i := by
        by_contra hj
        exact he ((hother j hj).ended.mp he')
      exact ⟨h.table.find_iff.mpr ⟨hin p hp, hpp⟩, rfl⟩
  · rw [hd.notes h hi hz, if_neg (fun he => hq i he.2), add_zero]

theorem Orderly.dies (h : Orderly k) (hd : Dies k i k') (hi : (k.tasks i).state ≠ .free)
    (hz : (k.tasks i).state ≠ .zombie ∨ k.find (k.tasks i).ppid = none) : Life k k' ∧ Orderly k' :=
  have hl := hd.life h hi hz
  ⟨hl, h.life (h.table.calm (hd.calm hi)) hl⟩

/-- Operations one after another. -/
theorem life_foldl {β : Type} {f : Kernel H → β → Kernel H} {l : List β}
    (hf : ∀ k, Orderly k → ∀ b ∈ l, Life k (f k b) ∧ Orderly (f k b)) (h : Orderly k) :
    Life k (l.foldl f k) ∧ Orderly (l.foldl f k) := by
  induction l generalizing k with
  | nil => exact ⟨.refl k, h⟩
  | cons b l ih =>
    obtain ⟨h₁, ho₁⟩ := hf k h b List.mem_cons_self
    obtain ⟨h₂, ho₂⟩ := ih (fun k hk c hc => hf k hk c (List.mem_cons_of_mem b hc)) ho₁
    exact ⟨h₁.trans h₂, ho₂⟩

/-! ## What the kernel does -/

theorem soft_killed {s : TaskState} (hf : s ≠ .free) (hz : s ≠ .zombie) : Soft s .killed := by
  refine ⟨fun h => absurd h hf, fun _ => Or.inl (Or.inr rfl), fun h => ?_, fun h => ?_⟩
  · rcases h with h | h
    · cases h
    · cases h
  · rcases h with h | h
    · exact absurd h hz
    · exact absurd h hf

/-- **`signal_task`** leaves the dead alone. -/
theorem life_signalTask (k : Kernel H) (pid : ℕ) (sig : UInt32) :
    Life k (k.signalTask pid sig).2 := by
  rw [signalTask]
  split
  · exact .refl k
  · next i hi =>
    have hfree := (find_eq_some hi).1
    dsimp only
    split
    · exact .refl k
    · next hdead =>
      split
      · have hset : Life k (k.setTask i { k.tasks i with sigPending := sig }) :=
          life_setTask rfl rfl (.refl _)
        split
        · exact hset.trans (wakes_unblock _ i).life
        · exact hset
      · exact life_setTask rfl rfl (soft_killed hfree (not_or.mp hdead).1)

/-- **`exit`**, unless a zombie tells its parent again. -/
theorem Orderly.exit (h : Orderly k) (code : UInt32)
    (hz : (k.tasks k.current).state ≠ .zombie ∨ k.find (k.tasks k.current).ppid = none) :
    Life k (k.exit code) ∧ Orderly (k.exit code) :=
  h.dies (dies_exit k code) h.table.current hz

/-- A signal that was taken did not find a zombie, and does not leave one. -/
theorem signalTask_alive {pid : ℕ} {sig : UInt32} (h : (k.signalTask pid sig).1 = true) :
    ∃ i, k.find pid = some i ∧ ((k.signalTask pid sig).2.tasks i).state ≠ .zombie := by
  rw [signalTask] at h ⊢
  cases hi : k.find pid with
  | none =>
    rw [hi] at h
    cases h
  | some i =>
    refine ⟨i, rfl, ?_⟩
    rw [hi] at h
    dsimp only at h ⊢
    split at h
    · cases h
    · next hdead =>
      rw [if_neg hdead]
      have hset : ((k.setTask i { k.tasks i with sigPending := sig }).tasks i).state ≠ .zombie := by
        rw [setTask_tasks, Function.update_self]
        exact (not_or.mp hdead).1
      split
      · dsimp only
        split
        · rcases (wakes_unblock (k.setTask i { k.tasks i with sigPending := sig }) i).state i with
            he | ⟨-, he⟩
          · rwa [he]
          · rw [he]
            exact TaskState.noConfusion
        · exact hset
      · rw [setTask_tasks, Function.update_self]
        exact TaskState.noConfusion

/-- **`kill`**, which ends the caller when that is whom it meant. -/
theorem Orderly.kill (h : Orderly k) (pid : ℕ) (sig : UInt32) :
    Life k (k.kill pid sig).2 ∧ Orderly (k.kill pid sig).2 := by
  have hs := life_signalTask k pid sig
  have hcalm := calm_signalTask k pid sig
  have halive : (k.signalTask pid sig).1 = true → _ := signalTask_alive
  rw [Kernel.kill]
  generalize k.signalTask pid sig = r at hs hcalm halive ⊢
  obtain ⟨ok, k₁⟩ := r
  have ho := h.life (h.table.calm hcalm) hs
  dsimp only at hs hcalm halive ho ⊢
  split
  · exact ⟨hs, ho⟩
  · next hok =>
    split
    · next hpid =>
      obtain ⟨i, hi, hz⟩ := halive (by simpa using hok)
      have hcur : i = k₁.current := by
        have := (h.table.find_iff.mp hi).2
        have := ho.table.pid k₁.current ho.table.current
        exact Fin.ext (by omega)
      obtain ⟨he, hoe⟩ := ho.exit (128 + sig) (Or.inl (hcur ▸ hz))
      exact ⟨hs.trans he, hoe⟩
    · exact ⟨hs, ho⟩

theorem dies_killUserFault (k : Kernel H) (intNo : ℕ) :
    Dies k k.current (k.killUserFault intNo) := by
  set t₀ : Task := { k.tasks k.current with signal := faultSignal intNo, state := .killed }
  obtain ⟨t, k₁, hp, hpp, hd, hs, h₁, h₂⟩ := dies_exit (k.setTask k.current t₀) 128
  rw [setTask_current, setTask_tasks, Function.update_self] at hp hpp hd
  rw [setTask_current, setTask_setTask] at h₁
  exact ⟨t, k₁, hp, hpp, hd, hs, h₁, h₂⟩

theorem life_ttyInput (owner : ℕ) (sigs : Bool) (k : Kernel H) (c : UInt8) :
    Life k (ttyInput owner sigs k c) := by
  rw [ttyInput]
  split
  · dsimp only
    generalize (if owner ≠ 0 then owner else (k.tasks k.current).pid) = pid
    split
    · exact life_signalTask k pid kSigInt
    · exact .refl k
  · exact .refl k

/-- A choice that is still alive takes the processor. -/
theorem life_switchTo (hi : ¬(k.tasks i).state.Dead ∧ (k.tasks i).state ≠ .free) :
    Life k (k.switchTo i) := by
  obtain ⟨-, hsame, hstate⟩ := switchTo_spec k i
  refine .of_soft (fun j => (hsame j).2.1) (fun j => (hsame j).2.2) fun j => ?_
  rw [hstate]
  split
  · next hj =>
    rw [hj]
    exact .running hi
  · split
    · next hr =>
      rw [hr.2]
      exact .ready ⟨by decide, by decide⟩
    · exact .refl _

section

variable [PageAlloc H]

theorem life_destroy (hi : (k.tasks i).state.Ended) : Life k (k.destroy i) := by
  rw [destroy]
  split
  · exact .refl k
  · refine Life.trans (Wakes.setMmu k _).life (life_setTask rfl rfl ?_)
    exact ⟨fun _ => rfl, fun _ => Or.inr rfl, fun _ => hi, fun _ => Or.inr rfl⟩

/-- **`reap`**, one slot. -/
theorem Orderly.reapSlot (h : Orderly k) (i : Fin kMaxTask) :
    Life k (k.reapSlot i) ∧ Orderly (k.reapSlot i) := by
  have hb : Life k (if (k.tasks i).state = .killed then k.bury i else k) ∧
      Orderly (if (k.tasks i).state = .killed then k.bury i else k) := by
    split
    · next hk =>
      exact h.dies (dies_bury k i) (by rw [hk]; exact TaskState.noConfusion)
        (Or.inl (by rw [hk]; exact TaskState.noConfusion))
    · exact ⟨.refl k, h⟩
  rw [Kernel.reapSlot]
  generalize (if (k.tasks i).state = .killed then k.bury i else k) = k₁ at hb ⊢
  obtain ⟨hl, ho⟩ := hb
  split
  · exact ⟨hl, ho⟩
  · next hne =>
    obtain ⟨hz, hc⟩ := not_or.mp hne
    have hd := life_destroy (Or.inl (not_not.mp hz))
    exact ⟨hl.trans hd, ho.life (ho.table.calm (calm_destroy hc)) hd⟩

theorem Orderly.reap (h : Orderly k) (hr : k.reap = some k') : Life k k' ∧ Orderly k' := by
  rw [Kernel.reap] at hr
  split at hr
  · cases hr
  · rw [← Option.some.inj hr]
    exact life_foldl (fun k hk i _ => hk.reapSlot i) h

end

/-! ## One step -/

/-- How many notes about the process in slot `i` task `p` gets. -/
def heard (k k' : Kernel H) (p i : Fin kMaxTask) : ℕ :=
  (k'.tasks p).notesAbout (i + 1) - (k.tasks p).notesAbout (i + 1)

/-- A step as it looks to a process and its parent. -/
structure Lives (k k' : Kernel H) : Prop where
  /-- Nobody in use has another parent. -/
  ppid : ∀ i, (k.tasks i).state ≠ .free → (k'.tasks i).ppid = (k.tasks i).ppid
  /-- What is dead does not run again, -/
  dead : ∀ i, (k.tasks i).state.Dead → (k'.tasks i).state.Dead ∨ (k'.tasks i).state = .free
  /-- and what has ended stays so. -/
  ended : ∀ i, (k.tasks i).state ≠ .free → (k.tasks i).state.Ended → (k'.tasks i).state.Ended
  /-- A parent hears of a child when it ends, once. -/
  heard : ∀ p i, (k.tasks p).state ≠ .free → (k'.tasks p).state ≠ .free →
    (k.tasks i).state ≠ .free → (k.tasks i).ppid = p + 1 → heard k k' p i =
      if ¬(k.tasks i).state.Ended ∧ (k'.tasks i).state.Ended then 1 else 0

theorem Life.lives (h : Life k k') : Lives k k' := by
  refine ⟨fun i _ => h.ppid i, h.dead, fun i _ => h.ended i, fun p i _ hp _ hpp => ?_⟩
  rw [Kernel.heard, h.note p hp, Nat.add_sub_cancel_left, told]
  simp only [hpp, and_true]

/-- A free slot is filled, and the notes about it may be lost. -/
theorem lives_of_others (hi : (k.tasks i).state = .free)
    (h : ∀ j, j ≠ i → (k'.tasks j).state = (k.tasks j).state ∧
      (k'.tasks j).ppid = (k.tasks j).ppid ∧
      ∀ q : ℕ, q ≠ i + 1 → (k'.tasks j).notesAbout q = (k.tasks j).notesAbout q) : Lives k k' := by
  have hne : ∀ j, (k.tasks j).state ≠ .free → j ≠ i := fun j hj he => hj (he ▸ hi)
  refine ⟨fun j hj => (h j (hne j hj)).2.1, fun j hj => ?_, fun j hj he => ?_,
    fun p j hp _ hj _ => ?_⟩
  · have hf : j ≠ i := hne j fun hf => by
      rw [hf] at hj
      rcases hj with hj | hj <;> cases hj
    rw [(h j hf).1]
    exact Or.inl hj
  · rw [(h j (hne j hj)).1]
    exact he
  · have hq : (j : ℕ) + 1 ≠ i + 1 := fun he => hne j hj (Fin.ext (by omega))
    rw [Kernel.heard, (h p (hne p hp)).2.2 _ hq, Nat.sub_self, (h j (hne j hj)).1, if_neg]
    rintro ⟨he, he'⟩
    exact he he'

/-- Notes may be lost. -/
theorem Orderly.fewer (h : Orderly k) (ht : Table k')
    (hs : ∀ i, (k'.tasks i).state = (k.tasks i).state)
    (hp : ∀ i, (k'.tasks i).ppid = (k.tasks i).ppid)
    (hn : ∀ i q, (k'.tasks i).notesAbout q ≤ (k.tasks i).notesAbout q) : Orderly k' := by
  refine ⟨ht, fun i hi => ?_, fun p hp q => ?_, fun p hp q hq => ?_, fun p hp i hi => ?_⟩
  · rw [hp]
    exact h.ppid i (hs i ▸ hi)
  · exact (hn p q).trans (h.once p (hs p ▸ hp) q)
  · exact Nat.le_zero.mp ((hn p q).trans (h.slot p (hs p ▸ hp) q hq).le)
  · exact Nat.le_zero.mp ((hn p _).trans (h.fresh p (hs p ▸ hp) i (hs i ▸ hi)).le)

/-- A new process, when no notes speak of its slot. -/
theorem Orderly.spawn (h : Orderly k) {t : Task} (hi : (k.tasks i).state = .free)
    (hn : ∀ p, (k.tasks p).state ≠ .free → (k.tasks p).notesAbout (i + 1) = 0)
    (ht : t.state = .free ∨ t.state = .ready ∧ t.pid = i + 1 ∧
      t.ppid = (k.tasks k.current).pid ∧ t.done = []) : Orderly (k.setTask i t) := by
  have htask : ∀ j, (k.setTask i t).tasks j = if j = i then t else k.tasks j := fun j => by
    rw [setTask_tasks, Function.update_apply]
  have hcur := h.table.pid k.current h.table.current
  have hne : k.current ≠ i := fun he => h.table.current (he ▸ hi)
  -- A slot that is in use afterwards was in use before, or it is the new one.
  have hnew : t.state ≠ .free → ∀ q, t.notesAbout q = 0 := fun hf q => by
    rw [Task.notesAbout, (ht.resolve_left hf).2.2.2]
    rfl
  refine ⟨h.table.spawn hi (ht.imp_right fun ht => ⟨ht.1, ht.2.1, ht.2.2.1⟩), fun j hj => ?_,
    fun p hp q => ?_, fun p hp q hq => ?_, fun p hp j hj => ?_⟩
  · rw [htask] at hj ⊢
    split
    · next he =>
      rw [if_pos he] at hj
      rw [(ht.resolve_left hj).2.2.1, hcur, he]
      exact fun he => hne (Fin.ext (by omega))
    · next he =>
      rw [if_neg he] at hj
      exact h.ppid j hj
  · rw [htask] at hp ⊢
    split
    · next he =>
      rw [if_pos he] at hp
      rw [hnew hp]
      exact Nat.zero_le 1
    · next he =>
      rw [if_neg he] at hp
      exact h.once p hp q
  · rw [htask] at hp ⊢
    split
    · next he =>
      rw [if_pos he] at hp
      exact hnew hp q
    · next he =>
      rw [if_neg he] at hp
      exact h.slot p hp q hq
  · rw [htask] at hp hj ⊢
    split
    · next he =>
      rw [if_pos he] at hp
      exact hnew hp _
    · next he =>
      rw [if_neg he] at hp
      by_cases hji : j = i
      · rw [hji]
        exact hn p hp
      · rw [if_neg hji] at hj
        exact h.fresh p hp j hj

theorem notesAbout_purge (k : Kernel H) (pid : ℕ) (j : Fin kMaxTask) (q : ℕ) :
    ((k.purgeNotes pid).tasks j).notesAbout q
      = if q = pid then 0 else (k.tasks j).notesAbout q := by
  have he : ((k.purgeNotes pid).tasks j).done.map Note.pid
      = ((k.tasks j).done.map Note.pid).filter fun n => n ≠ pid := by
    rw [List.filter_map]
    rfl
  rw [Task.notesAbout, he, Task.notesAbout]
  split
  · next hq =>
    rw [hq]
    exact List.count_eq_zero.mpr fun hm => by simpa using (List.mem_filter.mp hm).2
  · next hq => rw [List.count_filter (by simpa using hq)]

theorem orderly_collect (h : Orderly k) (pid : ℕ) :
    Orderly (k.collect pid) ∧ Lives k (k.collect pid) := by
  rcases collect_spec k pid with he | ⟨t, he, hp, hpp, hs, i, n, hn, hd⟩
  · rw [he]
    exact ⟨h, (Life.refl k).lives⟩
  · rw [he]
    have htask : ∀ j, (k.setTask k.current t).tasks j = if j = k.current then t else k.tasks j :=
      fun j => by rw [setTask_tasks, Function.update_apply]
    have hstate : ∀ j, ((k.setTask k.current t).tasks j).state = (k.tasks j).state := fun j => by
      rw [htask]
      split
      · next hj => rw [hj, hs]
      · rfl
    have hppid : ∀ j, ((k.setTask k.current t).tasks j).ppid = (k.tasks j).ppid := fun j => by
      rw [htask]
      split
      · next hj => rw [hj, hpp]
      · rfl
    have hless : ∀ j q, ((k.setTask k.current t).tasks j).notesAbout q
        ≤ (k.tasks j).notesAbout q := fun j q => by
      rw [htask]
      split
      · next hj =>
        rw [hj, Task.notesAbout, Task.notesAbout, hd,
          ← ((hole_perm hn).map Note.pid).count_eq q, List.map_cons]
        exact List.count_le_count_cons
      · exact le_rfl
    have htab : Table (k.setTask k.current t) := h.table.setCurrent hp hpp (hs ▸ h.table.current)
    refine ⟨h.fewer htab hstate hppid hless, fun j _ => hppid j, fun j hj => ?_, fun j _ he => ?_,
      fun p j _ _ _ _ => ?_⟩
    · rw [hstate]
      exact Or.inl hj
    · rw [hstate]
      exact he
    · rw [Kernel.heard, Nat.sub_eq_zero_of_le (hless p _), hstate, if_neg]
      rintro ⟨he, he'⟩
      exact he he'

end Kernel

/-! ## Runs -/

namespace Machine

open Kernel

variable {H : Type} {w w' : Machine H}

theorem life_ttyDrain (w : Machine H) (keys : List UInt8) : Life w.k (w.ttyDrain keys).k := by
  have hkeys : ∀ (k : Kernel H) (l : List UInt8),
      Life k (l.foldl (Kernel.ttyInput w.owner w.sigs) k) := by
    intro k l
    induction l generalizing k with
    | nil => exact .refl k
    | cons c l ih => exact (life_ttyInput w.owner w.sigs k c).trans (ih _)
  rw [ttyDrain]
  split
  · exact .refl _
  · exact (hkeys w.k keys).trans (wakes_kbdWake _ _).life

theorem life_onTick (w : Machine H) (keys : List UInt8) (serial : Bool) :
    Life w.k (w.onTick keys serial).k := by
  have h₁ := (wakes_ticked w).life
  rw [onTick]
  generalize w.ticked = v at h₁ ⊢
  have h₂ := life_ttyDrain v keys
  generalize v.ttyDrain keys = w₂ at h₂ ⊢
  split
  · exact (h₁.trans h₂).trans (wakes_kbdWake _ _).life
  · exact h₁.trans h₂

/-- What must not happen: a call that sets the state of a task that was killed meanwhile, a switch
to a task that is no longer there to run, a zombie that tells its parent again. -/
def Safe (w : Machine H) : Op H → Prop
  | .block | .resumeAfterExec | .becomeFirst => ¬(w.k.tasks w.k.current).state.Dead
  | .switch => ∀ i, w.pending = some i → ¬(w.k.tasks i).state.Dead ∧ (w.k.tasks i).state ≠ .free
  | .exit _ | .fault _ => (w.k.tasks w.k.current).state ≠ .zombie ∨
      w.k.find (w.k.tasks w.k.current).ppid = none
  -- These two are not what a running system does: the one is for zombies, and the other leaves
  -- notes about the last owner of the slot where they are.
  | .destroy i => (w.k.tasks i).state.Ended
  | .create _ => ∀ slot, w.k.freeSlot = some slot → ∀ p, (w.k.tasks p).notesAbout (slot + 1) = 0
  | _ => True

variable [PageAlloc H] {op : Op H} {k : Kernel H}

theorem orderly_create (h : Orderly k) (name : List UInt8)
    (hs : ∀ slot, k.freeSlot = some slot → ∀ p, (k.tasks p).notesAbout (slot + 1) = 0) :
    Orderly (k.create name).2 ∧ Lives k (k.create name).2 := by
  rcases create_spec k name with he | ⟨slot, t, m, pipes, hslot, he, -, hdone, ht⟩
  · rw [he]
    exact ⟨h, (Life.refl k).lives⟩
  · have hfree := (freeSlot_eq_some hslot).2
    rw [he]
    have ho : Orderly ((k.setMmu m).setTask slot t) :=
      (h.life (h.table.calm (Wakes.setMmu k m).calm) (Wakes.setMmu k m).life).spawn hfree
        (fun p _ => hs slot hslot p) (ht.imp_right fun ht => ⟨ht.1, ht.2.1, ht.2.2, hdone⟩)
    refine ⟨ho.life (ho.table.calm (Wakes.setPipes _ pipes).calm) (Wakes.setPipes _ pipes).life,
      lives_of_others hfree fun j hj => ?_⟩
    have htask : (((k.setMmu m).setTask slot t).setPipes pipes).tasks j = k.tasks j :=
      Function.update_of_ne hj _ _
    rw [htask]
    exact ⟨rfl, rfl, fun _ _ => rfl⟩

/-- A child has no notes about the last owner of its slot. -/
theorem orderly_forkUser (h : Orderly k) (frame : Registers) :
    Orderly (k.forkUser frame).2 ∧ Lives k (k.forkUser frame).2 := by
  rcases forkUser_table k frame with he | ⟨slot, t, m, pipes, hslot, he, -, hd, ht⟩
  · rw [he]
    exact ⟨h, (Life.refl k).lives⟩
  · have hfree := (freeSlot_eq_some hslot).2
    rw [he]
    have hpurge := notesAbout_purge k (slot + 1)
    have hless : ∀ j q, ((k.purgeNotes (slot + 1)).tasks j).notesAbout q
        ≤ (k.tasks j).notesAbout q := fun j q => by
      rw [hpurge]
      split
      · exact Nat.zero_le _
      · exact le_rfl
    have ho₁ : Orderly (k.purgeNotes (slot + 1)) :=
      h.fewer (h.table.calm (calm_purgeNotes k _)) (fun _ => rfl) (fun _ => rfl) hless
    have ho₂ := ho₁.life (ho₁.table.calm (Wakes.setMmu _ m).calm) (Wakes.setMmu _ m).life
    have ho := ho₂.spawn (t := t) hfree (fun p _ => (hpurge p _).trans (if_pos rfl))
      (ht.imp_right fun ht => ⟨ht.1, ht.2.1, ht.2.2, hd⟩)
    refine ⟨ho.life (ho.table.calm (Wakes.setPipes _ pipes).calm) (Wakes.setPipes _ pipes).life,
      lives_of_others hfree fun j hj => ?_⟩
    have htask : ((((k.purgeNotes (slot + 1)).setMmu m).setTask slot t).setPipes pipes).tasks j
        = (k.purgeNotes (slot + 1)).tasks j := Function.update_of_ne hj _ _
    rw [htask]
    exact ⟨rfl, rfl, fun q hq => (hpurge j q).trans (if_neg hq)⟩

/-- **One operation.** -/
theorem orderly_step (h : Orderly w.k) (hp : Table w) (ha : w.Allowed op) (hs : w.Safe op)
    (hst : w.step op = some w') : Orderly w'.k ∧ Lives w.k w'.k := by
  have htab := (hp.step ha hst).kernel
  have of_life : Life w.k w'.k → Orderly w'.k ∧ Lives w.k w'.k :=
    fun hl => ⟨h.life htab hl, hl.lives⟩
  cases op with
  | create name =>
    obtain rfl := Option.some.inj hst
    exact orderly_create h name hs
  | arm i =>
    obtain rfl := Option.some.inj hst
    exact of_life (life_setTask rfl rfl (.refl _))
  | fork frame =>
    obtain rfl := Option.some.inj hst
    exact orderly_forkUser h frame
  | destroy i =>
    obtain rfl := Option.some.inj hst
    exact of_life (life_destroy hs)
  | becomeFirst =>
    obtain rfl := Option.some.inj hst
    refine of_life (life_setTask rfl rfl ?_)
    rw [← ha.2]
    exact .ready ⟨hs, h.table.current⟩
  | block =>
    obtain rfl := Option.some.inj hst
    refine of_life ?_
    rw [setKernel_k, Kernel.block]
    split
    · exact .refl _
    · split
      · exact life_setTask rfl rfl (.running ⟨hs, h.table.current⟩)
      · exact life_setTask rfl rfl (.blocked ⟨hs, h.table.current⟩)
  | unblock i =>
    obtain rfl := Option.some.inj hst
    exact of_life (wakes_unblock _ i).life
  | resumeAfterExec =>
    obtain rfl := Option.some.inj hst
    exact of_life (life_setTask rfl rfl (.running ⟨hs, h.table.current⟩))
  | reap =>
    obtain ⟨k', hk', rfl⟩ := Option.map_eq_some_iff.mp hst
    exact of_life (h.reap hk').1
  | pick =>
    obtain rfl := Option.some.inj hst
    exact of_life (.refl _)
  | switch =>
    rw [Machine.step] at hst
    cases hpend : w.pending with
    | none =>
      rw [hpend] at hst
      obtain rfl := Option.some.inj hst
      exact of_life (.refl _)
    | some dst =>
      rw [hpend] at hst
      obtain rfl := Option.some.inj hst
      exact of_life (life_switchTo (hs dst hpend))
  | kill pid sig =>
    obtain rfl := Option.some.inj hst
    exact of_life (h.kill pid sig).1
  | fault intNo =>
    obtain rfl := Option.some.inj hst
    exact of_life ((dies_killUserFault w.k intNo).life h h.table.current hs)
  | exit code =>
    obtain rfl := Option.some.inj hst
    exact of_life ((dies_exit w.k code).life h h.table.current hs)
  | tick keys serial =>
    obtain rfl := Option.some.inj hst
    exact of_life (life_onTick w keys serial)
  | preempt r =>
    obtain ⟨⟨b, k'⟩, hpre, rfl⟩ := Option.map_eq_some_iff.mp hst
    obtain ⟨k₁, hslice, hrest⟩ := preempt_spec hpre
    have hk₁ := wakes_slice hslice
    have ho₁ := h.life (h.table.calm hk₁.calm) hk₁.life
    rcases hrest with ⟨rfl, rfl⟩ | ⟨k₂, hk₂, hrest⟩
    · exact of_life hk₁.life
    · have hl₂ := hk₁.life.trans (ho₁.reap hk₂).1
      rcases hrest with ⟨rfl, rfl⟩ | ⟨rfl, i, hi, -, rfl⟩
      · exact of_life hl₂
      · have hready := pick_ready hi
        exact of_life (hl₂.trans (life_switchTo (by rw [hready]; exact ⟨by decide, by decide⟩)))
  | key =>
    obtain rfl := Option.some.inj hst
    exact of_life (wakes_kbdWake _ _).life
  | drain keys =>
    obtain rfl := Option.some.inj hst
    exact of_life (life_ttyDrain w keys)
  | collect pid =>
    obtain rfl := Option.some.inj hst
    exact orderly_collect h pid
  | work t =>
    obtain rfl := Option.some.inj hst
    exact of_life (Wakes.setTask ha.2).life
  | outside mmu pipes kbdWait owner sigs =>
    obtain rfl := Option.some.inj hst
    exact of_life ((Wakes.setMmu w.k mmu).trans (.setPipes _ pipes)).life

omit [PageAlloc H] in
theorem orderly_boot (m : Mmu H) (kstack : ℕ) (kernCode : UInt32) :
    Orderly (boot m kstack kernCode).k := by
  have htask : ∀ i : Fin kMaxTask, ((boot m kstack kernCode).k.tasks i).ppid = 0 ∧
      ((boot m kstack kernCode).k.tasks i).done = [] := fun i => by
    change ((Function.update (fun _ => Task.zero) 0 _ : Fin kMaxTask → Task) i).ppid = _ ∧
      ((Function.update (fun _ => Task.zero) 0 _ : Fin kMaxTask → Task) i).done = _
    rw [Function.update_apply]
    split
    · exact ⟨rfl, rfl⟩
    · exact ⟨rfl, rfl⟩
  have hnote : ∀ i q, ((boot m kstack kernCode).k.tasks i).notesAbout q = 0 := fun i q => by
    rw [Task.notesAbout, (htask i).2]
    rfl
  refine ⟨(table_boot m kstack kernCode).kernel, fun i _ => ?_, fun p _ q => ?_,
    fun p _ q _ => hnote p q, fun p _ i _ => hnote p _⟩
  · rw [(htask i).1]
    exact (Nat.succ_ne_zero _).symm
  · rw [hnote]
    exact Nat.zero_le 1

/-- A run of safe operations from the start of the machine, up to a time. -/
structure Run (ws : ℕ → Machine H) (n : ℕ) : Prop where
  start : ∃ m kstack kernCode, ws 0 = boot m kstack kernCode
  step : ∀ t < n, ∃ op, (ws t).Allowed op ∧ (ws t).Safe op ∧ (ws t).step op = some (ws (t + 1))

variable {ws : ℕ → Machine H} {n : ℕ}

theorem Run.orderly (hr : Run ws n) {t : ℕ} (ht : t ≤ n) : Orderly (ws t).k ∧ Table (ws t) := by
  induction t with
  | zero =>
    obtain ⟨m, kstack, kernCode, h⟩ := hr.start
    rw [h]
    exact ⟨orderly_boot m kstack kernCode, table_boot m kstack kernCode⟩
  | succ t ih =>
    obtain ⟨ho, htab⟩ := ih (by omega)
    obtain ⟨op, ha, hs, hst⟩ := hr.step t ht
    exact ⟨(orderly_step ho htab ha hs hst).1, htab.step ha hst⟩

theorem Run.lives (hr : Run ws n) {t : ℕ} (ht : t < n) : Lives (ws t).k (ws (t + 1)).k := by
  obtain ⟨ho, htab⟩ := hr.orderly ht.le
  obtain ⟨op, ha, hs, hst⟩ := hr.step t ht
  exact (orderly_step ho htab ha hs hst).2

/-- **The dead stay dead.** While a slot is not freed, a process in it that was killed or has ended
stays so, and what its parent is told of it from one time to another, as long as there is one, is
one note if it ended in between, and none otherwise. -/
theorem dead_stay_dead (hr : Run ws n) {i : Fin kMaxTask} {a b : ℕ} (hab : a ≤ b) (hb : b ≤ n)
    (hlife : ∀ t, a ≤ t → t < b → ((ws t).k.tasks i).state ≠ .free) :
    (((ws a).k.tasks i).state.Dead →
        ((ws b).k.tasks i).state.Dead ∨ ((ws b).k.tasks i).state = .free) ∧
      ∀ p : Fin kMaxTask, ((ws a).k.tasks i).ppid = p + 1 →
        (∀ t, a ≤ t → t ≤ b → ((ws t).k.tasks p).state ≠ .free) →
          ∑ t ∈ Finset.Ico a b, heard (ws t).k (ws (t + 1)).k p i =
            if ¬((ws a).k.tasks i).state.Ended ∧ ((ws b).k.tasks i).state.Ended then 1 else 0 := by
  -- The induction also carries that the parent stays the same, and that an end is final.
  suffices h : (((ws a).k.tasks i).state.Dead →
        ((ws b).k.tasks i).state.Dead ∨ ((ws b).k.tasks i).state = .free) ∧
      ((ws b).k.tasks i).ppid = ((ws a).k.tasks i).ppid ∧
      (((ws a).k.tasks i).state.Ended → ((ws b).k.tasks i).state.Ended) ∧
      ∀ p : Fin kMaxTask, ((ws a).k.tasks i).ppid = p + 1 →
        (∀ t, a ≤ t → t ≤ b → ((ws t).k.tasks p).state ≠ .free) →
          ∑ t ∈ Finset.Ico a b, heard (ws t).k (ws (t + 1)).k p i =
            if ¬((ws a).k.tasks i).state.Ended ∧ ((ws b).k.tasks i).state.Ended then 1 else 0 from
    ⟨h.1, h.2.2.2⟩
  induction b, hab using Nat.le_induction with
  | base =>
    refine ⟨Or.inl, rfl, id, fun p _ _ => ?_⟩
    rw [Finset.Ico_self, Finset.sum_empty, if_neg]
    rintro ⟨h, h'⟩
    exact h h'
  | succ b hab ih =>
    obtain ⟨hdead, hppid, hended, hsum⟩ := ih (by omega) fun t h₁ h₂ => hlife t h₁ (by omega)
    have hin := hlife b hab b.lt_succ_self
    have hstep := hr.lives (t := b) (by omega)
    refine ⟨fun hd => ?_, (hstep.ppid i hin).trans hppid, fun he => hstep.ended i hin (hended he),
      fun p hp hparent => ?_⟩
    · exact hstep.dead i ((hdead hd).resolve_right hin)
    · have hnow := hstep.heard p i (hparent b hab b.le_succ)
        (hparent (b + 1) (by omega) le_rfl) hin (hppid.trans hp)
      have hend := hstep.ended i hin
      rw [Finset.sum_Ico_succ_top hab, hsum p hp fun t h₁ h₂ => hparent t h₁ (by omega), hnow]
      by_cases e : ((ws a).k.tasks i).state.Ended
      · simp only [e, hended e, not_true, false_and, if_false]
      · by_cases e' : ((ws b).k.tasks i).state.Ended
        · simp only [e, e', hend e', not_true, not_false_eq_true, true_and, false_and, if_false,
            add_zero]
        · simp only [e, e', not_false_eq_true, true_and, if_false, zero_add]

instance (w : Machine H) : (op : Op H) → Decidable (w.Safe op)
  | .block | .resumeAfterExec | .becomeFirst => inferInstanceAs (Decidable (¬_))
  | .switch => inferInstanceAs (Decidable (∀ i, w.pending = some i → _))
  | .exit _ | .fault _ => inferInstanceAs (Decidable (_ ∨ _))
  | .destroy i => inferInstanceAs (Decidable (w.k.tasks i).state.Ended)
  | .create _ => inferInstanceAs (Decidable (∀ slot, w.k.freeSlot = some slot → ∀ _, _ = 0))
  | .arm _ | .fork _ | .unblock _ | .reap | .pick | .kill .. | .tick .. | .preempt _ | .key
  | .drain _ | .collect _ | .work _ | .outside .. => isTrue trivial

theorem run_follow {m : Mmu H} {kstack : ℕ} {kernCode : UInt32} {ops : List (Op H)}
    (h : ∀ t < n, ∃ op ∈ ops[t]?, ((boot m kstack kernCode).follow ops t).Allowed op ∧
      ((boot m kstack kernCode).follow ops t).Safe op ∧
      (((boot m kstack kernCode).follow ops t).step op).isSome) :
    Run ((boot m kstack kernCode).follow ops) n := by
  refine ⟨⟨m, kstack, kernCode, rfl⟩, fun t ht => ?_⟩
  obtain ⟨op, hop, ha, hs, hst⟩ := h t ht
  exact ⟨op, ha, hs, follow_succ hop hst⟩

/-- A machine whose first task has a space. -/
def settled : Machine Pages.Bump := boot { bare.spaceCreate.2 with boot := 4096 } 8192 8

/-- It forks and waits; the child has its turn. -/
def child : List (Op Pages.Bump) :=
  [.fork { Registers.zero with cs := 0x1B }, .block, .pick, .switch]

/-- The child exits, and is on the list of its parent once, however often it is reaped. -/
theorem dead_stay_dead_child : ∑ t ∈ Finset.Ico 1 7,
    heard (settled.follow (child ++ [.exit 7, .unblock 0, .reap]) t).k
      (settled.follow (child ++ [.exit 7, .unblock 0, .reap]) (t + 1)).k 0 1 = 1 := by
  have hr : Run (settled.follow (child ++ [.exit 7, .unblock 0, .reap])) 7 :=
    run_follow (by decide +kernel)
  have hin : ∀ i : Fin kMaxTask, i = 0 ∨ i = 1 → ∀ t, 1 ≤ t → t ≤ 7 →
      ((settled.follow (child ++ [.exit 7, .unblock 0, .reap]) t).k.tasks i).state ≠ .free := by
    have : ∀ t < 8, 1 ≤ t → ((settled.follow (child ++ [.exit 7, .unblock 0, .reap]) t).k.tasks
        0).state ≠ .free ∧ ((settled.follow (child ++ [.exit 7, .unblock 0, .reap]) t).k.tasks
        1).state ≠ .free := by decide +kernel
    rintro i (rfl | rfl) t h₁ h₂
    · exact (this t (by omega) h₁).1
    · exact (this t (by omega) h₁).2
  rw [(dead_stay_dead hr (by decide) le_rfl fun t h₁ h₂ => hin 1 (Or.inr rfl) t h₁ h₂.le).2 0
    (by decide +kernel) (hin 0 (Or.inl rfl))]
  decide +kernel

/-- The interrupt key kills the child while it looks for a line to read, and it waits for one. -/
theorem killed_blocks : Reachable settled (settled.follow (child ++ [.drain [3], .block]) 5) ∧
    ((settled.follow (child ++ [.drain [3], .block]) 5).k.tasks 1).state = .killed ∧
    (settled.follow (child ++ [.drain [3], .block]) 5).step .block
      = some (settled.follow (child ++ [.drain [3], .block]) 6) ∧
    ((settled.follow (child ++ [.drain [3], .block]) 6).k.tasks 1).state = .blocked :=
  ⟨reachable_follow (by decide +kernel), by decide +kernel, follow_succ rfl (by decide +kernel),
    by decide +kernel⟩

end Machine

end Aurisys
