import Aurisys.Kernel.Table
import Aurisys.Lib.Packed

/-!
# The children that have ended

A task keeps the numbers of its children that have ended in one array and how they ended in another,
with one count for the two, the oldest first.

Four functions change the two arrays. `announce` puts a child behind the others, if there is room.
`purge_notes` goes over the list in order. But `take_done` moves the last entry into the hole, which
is younger than all that stand between, and `take_signal` moves only its number there.

## Main definitions

* `DoneList` — the code, on the two arrays
* `Queue` — what they are for: children that wait in a line
* `Ordered` — the code does what the line does, to the end
* `InTurn` — what is taken is at the end of the list, or what stands behind it does no harm

## Main results

* `view_takeDone`, `view_takeSignal`, `view_purgeNotes` — what the code does to the list
* `ordered_iff` — when the list is the line in every run
* `Kernel.takeDone_view`, `Kernel.done_noted_view`, `Kernel.done_purgeNotes` — the lists of the
  tasks are such lists
-/

namespace Aurisys

open Function Packed

/-! ## The code -/

/-- `done_pid`, `done_code` and `done_n`. -/
structure DoneList where
  donePid : ℕ → ℕ
  doneCode : ℕ → UInt32
  doneN : ℕ
  le : doneN ≤ kMaxTask

def kSigChild : UInt32 := 17

/-- Is this one asked for? `0` asks for any child. -/
def Note.wanted (pid : ℕ) (n : Note) : Bool := pid = 0 ∨ n.pid = pid

namespace DoneList

def entry (d : DoneList) (i : ℕ) : Note := ⟨d.donePid i, d.doneCode i⟩

/-- `announce`. -/
def announce (d : DoneList) (t : Note) : DoneList :=
  if h : kMaxTask ≤ d.doneN then d
  else
    { donePid := update d.donePid d.doneN t.pid
      doneCode := update d.doneCode d.doneN t.code
      doneN := d.doneN + 1
      le := by omega }

/-- The loop of `take_done` and `take_signal`: the first entry that is asked for. -/
def find (d : DoneList) (pid : ℕ) : Option ℕ :=
  (List.range d.doneN).find? fun i => (d.entry i).wanted pid

/-- `take_done`. -/
def takeDone (d : DoneList) (pid : ℕ) : Option Note × DoneList :=
  match d.find pid with
  | none => (none, d)
  | some i =>
    (some (d.entry i),
      { donePid := update d.donePid i (d.donePid (d.doneN - 1))
        doneCode := update d.doneCode i (d.doneCode (d.doneN - 1))
        doneN := d.doneN - 1
        le := (Nat.sub_le _ _).trans d.le })

/-- `take_signal`: only the number moves into the hole. -/
def takeSignal (d : DoneList) (pid : ℕ) : UInt32 × DoneList :=
  match d.find pid with
  | none => (kSigNone, d)
  | some i =>
    (kSigChild,
      { d with
        donePid := update d.donePid i (d.donePid (d.doneN - 1))
        doneN := d.doneN - 1
        le := (Nat.sub_le _ _).trans d.le })

/-- The two arrays and the count. -/
structure Notes where
  pid : ℕ → ℕ
  code : ℕ → UInt32
  n : ℕ

def Notes.entry (r : Notes) (i : ℕ) : Note := ⟨r.pid i, r.code i⟩

/-- The loop of `purge_notes` over the first entries: those that stay come forward. -/
def purgeTo (d : DoneList) (pid : ℕ) : ℕ → Notes
  | 0 => ⟨d.donePid, d.doneCode, 0⟩
  | k + 1 =>
    let r := d.purgeTo pid k
    if r.pid k = pid then r else ⟨update r.pid r.n (r.pid k), update r.code r.n (r.code k), r.n + 1⟩

theorem n_purgeTo_le (d : DoneList) (pid k : ℕ) : (d.purgeTo pid k).n ≤ k := by
  induction k with
  | zero => exact Nat.le_refl 0
  | succ k ih =>
    rw [purgeTo]
    split
    · exact Nat.le_succ_of_le ih
    · exact Nat.succ_le_succ ih

/-- `purge_notes`, for one task. -/
def purgeNotes (d : DoneList) (pid : ℕ) : DoneList :=
  let r := d.purgeTo pid d.doneN
  ⟨r.pid, r.code, r.n, (d.n_purgeTo_le pid d.doneN).trans d.le⟩

/-- The list. -/
def view (d : DoneList) : List Note := live d.entry d.doneN

end DoneList

/-! ## What it is for -/

/-- The children that have ended and were not collected, in a line. -/
abbrev Queue := List Note

namespace Queue

def announce (q : Queue) (t : Note) : Queue := q ++ [t]

/-- The oldest that is asked for is taken. -/
def takeDone (q : Queue) (pid : ℕ) : Option Note × Queue :=
  (q.find? (Note.wanted pid), q.eraseP (Note.wanted pid))

def takeSignal (q : Queue) (pid : ℕ) : UInt32 × Queue :=
  (if q.any (Note.wanted pid) then kSigChild else kSigNone, q.eraseP (Note.wanted pid))

def purgeNotes (q : Queue) (pid : ℕ) : Queue := q.filter fun n => n.pid ≠ pid

end Queue

inductive DoneOp
  | announce (t : Note)
  | takeDone (pid : ℕ)
  | takeSignal (pid : ℕ)
  | purgeNotes (pid : ℕ)

/-- What comes back. -/
inductive DoneAnswer
  | none
  | child (n : Option Note)
  | signal (s : UInt32)
deriving DecidableEq

def DoneList.step (d : DoneList) : DoneOp → DoneAnswer × DoneList
  | .announce t => (.none, d.announce t)
  | .takeDone pid => (.child (d.takeDone pid).1, (d.takeDone pid).2)
  | .takeSignal pid => (.signal (d.takeSignal pid).1, (d.takeSignal pid).2)
  | .purgeNotes pid => (.none, d.purgeNotes pid)

def Queue.step (q : Queue) : DoneOp → DoneAnswer × Queue
  | .announce t => (.none, q.announce t)
  | .takeDone pid => (.child (q.takeDone pid).1, (q.takeDone pid).2)
  | .takeSignal pid => (.signal (q.takeSignal pid).1, (q.takeSignal pid).2)
  | .purgeNotes pid => (.none, q.purgeNotes pid)

/-- **The list is the line**, before and after each step, and what comes back is what the line
gives. -/
def Ordered : DoneList → Queue → List DoneOp → Prop
  | d, q, [] => d.view = q
  | d, q, op :: ops =>
    d.view = q ∧ (d.step op).1 = (q.step op).1 ∧ Ordered (d.step op).2 (q.step op).2 ops

/-- A step that keeps the order: there is room for a child, and what stands behind one that is taken
is no more than the entry that is moved into the hole. -/
def InTurn (d : DoneList) : DoneOp → Prop
  | .announce _ => d.doneN < kMaxTask
  | .takeDone pid => ∀ i, d.find pid = some i → ∀ n ∈ d.view.drop (i + 1), n = d.entry (d.doneN - 1)
  | .takeSignal pid =>
    ∀ i, d.find pid = some i → ∀ n ∈ d.view.drop (i + 1), n = ⟨d.donePid (d.doneN - 1),
      d.doneCode i⟩
  | .purgeNotes _ => True

/-- Each step of the run does. -/
def AllInTurn : DoneList → List DoneOp → Prop
  | _, [] => True
  | d, op :: ops => InTurn d op ∧ AllInTurn (d.step op).2 ops

/-! ## What the code does to the list -/

namespace DoneList

variable {d : DoneList} {pid i : ℕ}

theorem entry_update (p : ℕ → ℕ) (c : ℕ → UInt32) (i : ℕ) (n : Note) :
    (fun j => Note.mk (update p i n.pid j) (update c i n.code j)) =
    update (fun j => Note.mk (p j) (c j)) i n := by
  funext j
  by_cases hj : j = i
  · rw [hj, update_self, update_self, update_self]
  · rw [update_of_ne hj, update_of_ne hj, update_of_ne hj]

theorem entry_update_pid (p : ℕ → ℕ) (c : ℕ → UInt32) (i a : ℕ) :
    (fun j => Note.mk (update p i a j) (c j)) = update (fun j => Note.mk (p j) (c j)) i
    ⟨a, c i⟩ := by
  funext j
  by_cases hj : j = i
  · rw [hj, update_self, update_self]
  · rw [update_of_ne hj, update_of_ne hj]

@[simp] theorem length_view (d : DoneList) : d.view.length = d.doneN := length_live _ _

theorem view_announce (t : Note) (h : d.doneN < kMaxTask) :
    (d.announce t).view = d.view ++ [t] := by
  rw [announce, dif_neg (Nat.not_le.mpr h), view]
  show live (fun j => Note.mk (update d.donePid d.doneN t.pid j)
    (update d.doneCode d.doneN t.code j)) _ = _
  rw [entry_update, live_push]
  rfl

/-- A child for which there is no room is lost. -/
theorem view_announce_full (t : Note) (h : kMaxTask ≤ d.doneN) : (d.announce t).view = d.view := by
  rw [announce, dif_pos h]

theorem find_eq (d : DoneList) (pid : ℕ) : d.find pid = d.view.findIdx? (Note.wanted pid) :=
  find?_range_live (Note.wanted pid) d.entry d.doneN

theorem map_find (d : DoneList) (pid : ℕ) :
    (d.find pid).map d.entry = d.view.find? (Note.wanted pid) := by
  rw [view, live, List.find?_map]
  rfl

theorem lt_of_find (h : d.find pid = some i) : i < d.doneN :=
  List.mem_range.mp (List.mem_of_find?_eq_some h)

theorem eraseP_view (h : d.find pid = some i) :
    d.view.eraseP (Note.wanted pid) = d.view.eraseIdx i := by
  rw [find_eq] at h
  rw [List.eraseP_eq_eraseIdx, h]

theorem eraseP_view_none (h : d.find pid = none) : d.view.eraseP (Note.wanted pid) = d.view := by
  rw [find_eq] at h
  rw [List.eraseP_eq_eraseIdx, h]

/-- **`take_done`** puts the last entry into the hole. -/
theorem view_takeDone (h : d.find pid = some i) :
    (d.takeDone pid).2.view = (d.view.set i (d.entry (d.doneN - 1))).dropLast := by
  rw [takeDone, h, view, view, ← live_fill, ← entry_update]
  rfl

/-- **`take_signal`** puts only its number there. -/
theorem view_takeSignal (h : d.find pid = some i) :
    (d.takeSignal pid).2.view =
      (d.view.set i ⟨d.donePid (d.doneN - 1), d.doneCode i⟩).dropLast := by
  rw [view, view, ← live_fill]
  show live (d.takeSignal pid).2.entry _ =
    live (update (fun j => Note.mk (d.donePid j) (d.doneCode j)) _ _) _
  rw [← entry_update_pid, takeSignal, h]
  rfl

theorem purgeTo_spec (d : DoneList) (pid k : ℕ) :
    live (d.purgeTo pid k).entry (d.purgeTo pid k).n = (live d.entry k).filter
      (fun n => n.pid ≠ pid) ∧
        ∀ j, k ≤ j → (d.purgeTo pid k).entry j = d.entry j := by
  induction k with
  | zero => exact ⟨rfl, fun _ _ => rfl⟩
  | succ k ih =>
    obtain ⟨hview, hrest⟩ := ih
    have hle := d.n_purgeTo_le pid k
    rw [purgeTo]
    generalize d.purgeTo pid k = r at hview hrest hle ⊢
    -- The entry that is read has not been written to: those that stay are no more than those that
    -- were read.
    have hread : r.entry k = d.entry k := hrest k (Nat.le_refl k)
    have hpid : r.pid k = (d.entry k).pid := congrArg Note.pid hread
    rw [live_succ, List.filter_append]
    by_cases hp : (d.entry k).pid = pid
    · simp only [if_pos (hpid.trans hp)]
      refine ⟨?_, fun j hj => hrest j (Nat.le_of_succ_le hj)⟩
      rw [hview]
      simp [hp]
    · have hentry : (Notes.mk (update r.pid r.n (r.pid k)) (update r.code r.n (r.code k))
        (r.n + 1)).entry =
          update r.entry r.n (r.entry k) := entry_update r.pid r.code r.n (r.entry k)
      simp only [if_neg (fun h => hp (hpid.symm.trans h))]
      rw [hentry, live_push, hread, hview]
      refine ⟨by simp [hp], fun j hj => ?_⟩
      rw [update_of_ne (by omega)]
      exact hrest j (Nat.le_of_succ_le hj)

/-- **`purge_notes`** keeps the order. -/
theorem view_purgeNotes (d : DoneList) (pid : ℕ) :
    (d.purgeNotes pid).view = Queue.purgeNotes d.view pid :=
  (d.purgeTo_spec pid d.doneN).1

/-! ## One step -/

theorem takeDone_fst (d : DoneList) (pid : ℕ) :
    (d.takeDone pid).1 = (Queue.takeDone d.view pid).1 := by
  rw [Queue.takeDone, ← map_find, takeDone]
  cases d.find pid with
  | none => rfl
  | some i => rfl

theorem takeSignal_fst (d : DoneList) (pid : ℕ) :
    (d.takeSignal pid).1 = (Queue.takeSignal d.view pid).1 := by
  have hany : d.view.any (Note.wanted pid) = (d.find pid).isSome := by
    rw [find_eq, List.findIdx?_isSome]
  rw [Queue.takeSignal, hany, takeSignal]
  cases d.find pid with
  | none => rfl
  | some i => rfl

/-- **One step keeps the order** just when it is its turn. -/
theorem step_iff (d : DoneList) (op : DoneOp) :
    (d.step op).1 = (Queue.step d.view op).1 ∧ (d.step op).2.view = (Queue.step d.view op).2 ↔
    InTurn d op := by
  cases op with
  | announce t =>
    show _ ∧ (d.announce t).view = d.view ++ [t] ↔ d.doneN < kMaxTask
    by_cases h : d.doneN < kMaxTask
    · exact iff_of_true ⟨rfl, view_announce t h⟩ h
    · rw [view_announce_full t (Nat.not_lt.mp h)]
      refine iff_of_false (fun hv => ?_) h
      exact absurd (congrArg List.length hv.2) (by simp)
  | takeDone pid =>
    show DoneAnswer.child _ = .child _ ∧ (d.takeDone pid).2.view = d.view.eraseP (Note.wanted pid) ↔
      _
    rw [takeDone_fst, and_iff_right rfl, InTurn]
    cases h : d.find pid with
    | none =>
      rw [eraseP_view_none h, takeDone, h]
      exact iff_of_true rfl (by simp)
    | some i =>
      rw [eraseP_view h, view_takeDone h,
        fill_eq_eraseIdx_iff (by rw [length_view]; exact lt_of_find h)]
      simp
  | takeSignal pid =>
    show DoneAnswer.signal _ = .signal _ ∧ (d.takeSignal pid).2.view = d.view.eraseP
      (Note.wanted pid) ↔ _
    rw [takeSignal_fst, and_iff_right rfl, InTurn]
    cases h : d.find pid with
    | none =>
      rw [eraseP_view_none h, takeSignal, h]
      exact iff_of_true rfl (by simp)
    | some i =>
      rw [eraseP_view h, view_takeSignal h,
        fill_eq_eraseIdx_iff (by rw [length_view]; exact lt_of_find h)]
      simp
  | purgeNotes pid => exact iff_of_true ⟨rfl, view_purgeNotes d pid⟩ trivial

end DoneList

/-! ## All steps -/

theorem Ordered.view {d : DoneList} {q : Queue} {ops : List DoneOp} (h : Ordered d q ops) :
    d.view = q := by
  cases ops with
  | nil => exact h
  | cons op ops => exact h.1

/-- **The list is the line in every run** just when each step is in turn. -/
theorem ordered_iff (d : DoneList) (ops : List DoneOp) :
    Ordered d d.view ops ↔ AllInTurn d ops := by
  induction ops generalizing d with
  | nil => exact iff_of_true rfl trivial
  | cons op ops ih =>
    rw [Ordered, AllInTurn]
    constructor
    · rintro ⟨_, hans, hrest⟩
      have hview := hrest.view
      rw [← hview] at hrest
      exact ⟨(d.step_iff op).mp ⟨hans, hview⟩, (ih _).mp hrest⟩
    · rintro ⟨hturn, hrest⟩
      obtain ⟨hans, hview⟩ := (d.step_iff op).mpr hturn
      rw [← hview]
      exact ⟨rfl, hans, (ih _).mpr hrest⟩

/-- No child has ended. -/
def DoneList.none : DoneList := ⟨fun _ => 0, fun _ => 0, 0, Nat.zero_le _⟩

/-- Of three children, the youngest is taken after the first. -/
theorem not_ordered_three : ¬ Ordered .none []
    [.announce ⟨2, 0⟩, .announce ⟨3, 0⟩, .announce ⟨4, 0⟩, .takeDone 0, .takeDone 0] := by
  rintro ⟨-, -, -, -, -, -, -, -, -, h, -⟩
  exact absurd h (by decide)

/-! ## The lists of the tasks -/

namespace Kernel

variable {H : Type} {d : DoneList} {k : Kernel H} {i p : Fin kMaxTask}

/-- **`take_done`** of a task whose list is in the arrays. -/
theorem takeDone_view {t : Task} (h : t.done = d.view) (pid : ℕ) :
    takeDone t pid = (d.takeDone pid).1.map fun n => (n,
      { t with done := (d.takeDone pid).2.view }) := by
  have hfind : t.done.findIdx? (fun n => decide (pid = 0 ∨ n.pid = pid)) = d.find pid := by
    rw [h, d.find_eq]
    rfl
  rw [takeDone, hfind]
  cases hi : d.find pid with
  | none =>
    rw [DoneList.takeDone, hi]
    rfl
  | some i =>
    have hlt := DoneList.lt_of_find hi
    have hlast : d.view.getLast? = some (d.entry (d.doneN - 1)) := getLast?_live (by omega)
    rw [DoneList.view_takeDone hi, DoneList.takeDone, hi, h, Option.bind_some, hlast, DoneList.view,
      getElem?_live hlt]
    rfl

/-- **`announce`** of a child whose parent is there. -/
theorem done_noted_view (hp : k.find (k.tasks i).ppid = some p) (hne : p ≠ i)
    (h : (k.tasks p).done = d.view) :
    ((k.noted i).tasks p).done = (d.announce (noteOf (k.tasks i))).view := by
  rw [noted, hp]
  dsimp only
  by_cases hroom : kMaxTask ≤ d.doneN
  · rw [if_pos (Or.inr (by rwa [h, DoneList.length_view])), h, DoneList.view_announce_full _ hroom]
  · rw [if_neg (not_or.mpr ⟨hne, by rwa [h, DoneList.length_view]⟩),
      DoneList.view_announce _ (Nat.not_le.mp hroom),
      setTask_tasks, update_self, h]

/-- **`purge_notes`**, which goes over all tasks. -/
theorem done_purgeNotes (h : (k.tasks i).done = d.view) (pid : ℕ) :
    ((k.purgeNotes pid).tasks i).done = (d.purgeNotes pid).view := by
  rw [DoneList.view_purgeNotes, ← h]
  rfl

end Kernel

end Aurisys
