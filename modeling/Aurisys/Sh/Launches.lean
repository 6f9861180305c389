import Aurisys.Sh.Background
import Aurisys.Sh.Fds

/-!
# The stages that are started

Whether a stage is started is said twice. For the lines of the shell the world says what becomes of
each stage, and there are no descriptors. For the descriptors of the shell it is they that decide,
with what the rest of the system says to `open` and `pipe`. The two say the same.

## Main definitions

* `Decided`, `Decides` — the world says what the descriptors decide

## Main results

* `prepare_iff` — a stage is started
* `started_runPipeline` — the stages of a pipeline that are started
* `exists_decides` — there is such a world, for any descriptors
-/

namespace Aurisys

namespace Sh

namespace Fds

variable {α : Type} {t : Fds α} {s : Stage} {a : Answers α} {i : ℕ} {more : Bool}
  {p : Turn α} {h : Ready α} {f : Fate} {fates : ℕ → Fate} {cs : List (Stage × Answers α)}

/-- What becomes of a stage is what its descriptors decide, and `fork` makes a child of it. -/
structure Decided (f : Fate) (i : ℕ) (more : Bool) (s : Stage) (a : Answers α)
    (p : Turn α) : Prop where
  /-- There is a child. -/
  forked : 0 < f.pid
  /-- The pipe has two descriptors. -/
  pipe : more = true → f.pipe = (openPipe p.fds i more a.pipe).isSome
  /-- The file to read from is opened behind the pipe. -/
  input : ∀ h, openPipe p.fds i more a.pipe = some h →
    f.input = (openRedir h.fds s.input a.input).1.isSome
  /-- The file to write to is opened behind that. -/
  output : ∀ h r, openPipe p.fds i more a.pipe = some h →
    redirect h.fds p.carried s.input a.input = .ok r →
    f.output = (openRedir r.2 s.output a.output).1.isSome
  /-- The program is looked for in the end. -/
  found : ∀ h r r', openPipe p.fds i more a.pipe = some h →
    redirect h.fds p.carried s.input a.input = .ok r →
    redirect r.2 h.out s.output a.output = .ok r' →
    (f.found = true ↔ (which r'.2 a.asPath a.probes).1 = .found)

/-- The fates of all stages from one on that are come to. -/
def Decides (fates : ℕ → Fate) (i : ℕ) : List (Stage × Answers α) → Turn α → Prop
  | [], _ => True
  | c :: cs, p => Decided (fates i) i (!cs.isEmpty) c.1 c.2 p ∧
    ∀ h, prepare i (!cs.isEmpty) c.1 c.2 p = .ok h →
      Decides fates (i + 1) cs ⟨(runStage h.fds c.1 h.inp h.out).2, h.next⟩

/-! ## One stage -/

theorem not_exists_ok {ε β : Type} {e : ε} : ¬∃ b : β, Except.error e = .ok b := by
  rintro ⟨_, h⟩
  cases h

/-- A redirection does not fail if there is nothing to open. -/
theorem redirect_isOk (t : Fds α) (o : Option (Fin kMaxFd)) (r : Redir) (x : Option α) :
    (∃ r', t.redirect o r x = .ok r') ↔ (o = none → r.kind ≠ 0 →
      (t.openRedir r x).1.isSome = true) := by
  by_cases hopen : o = none ∧ r.kind ≠ 0
  · rw [redirect, if_pos hopen]
    obtain ⟨fd, t'⟩ := t.openRedir r x
    cases fd with
    | none => exact iff_of_false not_exists_ok fun h => Bool.false_ne_true (h hopen.1 hopen.2)
    | some fd => exact iff_of_true ⟨_, rfl⟩ fun _ _ => rfl
  · rw [redirect, if_neg hopen]
    exact iff_of_true ⟨_, rfl⟩ fun ho hr => absurd ⟨ho, hr⟩ hopen

/-- What a stage writes to, and the next one reads from, is there if another one follows. -/
theorem openPipe_ends {ok : Bool} (hopen : openPipe t i more ok = some h) :
    (h.out = none ↔ more = false) ∧ (h.next = none ↔ more = false) := by
  cases more with
  | false =>
    obtain rfl := Option.some.inj hopen
    exact ⟨iff_of_true rfl rfl, iff_of_true rfl rfl⟩
  | true =>
    cases ok with
    | false => cases hopen
    | true =>
      obtain ⟨q, -, rfl⟩ := Option.map_eq_some_iff.mp hopen
      simp

/-- **A stage is started**, with its descriptors, if nothing is said against it. -/
theorem prepare_iff (hd : Decided f i more s a p) (hc : p.carried = none ↔ i = 0) :
    (∃ h, prepare i more s a p = .ok h) ↔ (more = true → f.pipe = true) ∧
      (i = 0 → s.input.kind ≠ 0 → f.input = true) ∧
      (more = false → s.output.kind ≠ 0 → f.output = true) ∧
        f.found = true := by
  rw [prepare]
  cases hopen : openPipe p.fds i more a.pipe with
  | none =>
    have hmore : more = true := by
      cases more with
      | false => cases hopen
      | true => rfl
    refine iff_of_false not_exists_ok fun hall => absurd (hall.1 hmore) ?_
    rw [hd.pipe hmore, hopen]
    exact Bool.false_ne_true
  | some h =>
    have hpipe : more = true → f.pipe = true := fun hmore => by
      rw [hd.pipe hmore, hopen]
      rfl
    have hinput := redirect_isOk h.fds p.carried s.input a.input
    rw [← hd.input h hopen, hc] at hinput
    dsimp only
    cases hin : redirect h.fds p.carried s.input a.input with
    | error t₁ =>
      rw [hin] at hinput
      exact iff_of_false not_exists_ok fun hall => not_exists_ok (hinput.mpr hall.2.1)
    | ok r₁ =>
      have houtput := redirect_isOk r₁.2 h.out s.output a.output
      rw [← hd.output h r₁ hopen hin, (openPipe_ends hopen).1] at houtput
      dsimp only
      cases hout : redirect r₁.2 h.out s.output a.output with
      | error t₂ =>
        rw [hout] at houtput
        exact iff_of_false not_exists_ok fun hall => not_exists_ok (houtput.mpr hall.2.2.1)
      | ok r₂ =>
        have hfound := hd.found h r₁ r₂ hopen hin hout
        have hrest := and_iff_right (b := f.found = true) (houtput.mp ⟨r₂, hout⟩)
        rw [and_iff_right hpipe, and_iff_right (hinput.mp ⟨r₁, hin⟩), hrest, hfound]
        dsimp only
        obtain ⟨why, t₃⟩ := which r₂.2 a.asPath a.probes
        cases why with
        | found => exact iff_of_true ⟨_, rfl⟩ rfl
        | noSuchCommand => exact iff_of_false not_exists_ok (by simp)
        | notAProgram => exact iff_of_false not_exists_ok (by simp)
        | noSuchFile => exact iff_of_false not_exists_ok (by simp)

/-- What is kept for the next stage. -/
theorem prepare_next (hprep : prepare i more s a p = .ok h) : h.next = none ↔ more = false := by
  obtain ⟨h₀, t, hopen, -, -, hnext⟩ := prepare_ok hprep
  rw [hnext]
  exact (openPipe_ends hopen).2

/-! ## All of them -/

variable {o : World} {place : Str} {kids : Kids} {m : Mem}

/-- **One turn of the loop**, of a shell that gets its children. -/
theorem started_pipelineLoop_cons {c : Command} {cs : List Command}
    (hpid : 0 < (o.fate place i).pid) :
    started (Sh.pipelineLoop o place i (c :: cs) kids).2.2 =
      if (cs ≠ [] → (o.fate place i).pipe = true) ∧ (i = 0 → c.input.kind ≠ 0 →
        (o.fate place i).input = true) ∧
          (cs = [] → c.output.kind ≠ 0 → (o.fate place i).output = true) ∧
          (o.fate place i).found = true then
        c.argv :: started (Sh.pipelineLoop o place (i + 1) cs
          (kids ++ [((o.fate place i).pid, (o.fate place i).status)])).2.2
      else [] := by
  rw [Sh.pipelineLoop]
  dsimp only
  by_cases hpipe : cs ≠ [] ∧ (o.fate place i).pipe = false
  · rw [if_pos hpipe, if_neg fun h => absurd (hpipe.2.symm.trans (h.1 hpipe.1)) Bool.false_ne_true]
    exact started_waits kids
  rw [if_neg hpipe]
  by_cases hin : i = 0 ∧ c.input.kind ≠ 0 ∧ (o.fate place i).input = false
  · rw [if_pos hin, if_neg fun h => absurd (hin.2.2.symm.trans (h.2.1 hin.1 hin.2.1))
      Bool.false_ne_true]
    exact started_waits kids
  rw [if_neg hin]
  by_cases hout : cs = [] ∧ c.output.kind ≠ 0 ∧ (o.fate place i).output = false
  · rw [if_pos hout, if_neg fun h => absurd (hout.2.2.symm.trans (h.2.2.1 hout.1 hout.2.1))
      Bool.false_ne_true]
    exact started_waits kids
  rw [if_neg hout]
  by_cases hfound : (o.fate place i).found = false
  · rw [if_pos hfound, if_neg fun h => absurd (hfound.symm.trans h.2.2.2) Bool.false_ne_true]
    exact started_waits kids
  rw [if_neg hfound, if_neg hpid.ne', if_neg hpid.not_gt, if_pos]
  · rfl
  · simp only [not_and, Bool.not_eq_false] at hpipe hin hout hfound
    exact ⟨hpipe, hin, hout, hfound⟩

/-- **The loop** starts the same stages. -/
theorem started_pipelineLoop (kids : Kids) (hd : Decides (o.fate place) i cs p)
    (hc : cs ≠ [] → (p.carried = none ↔ i = 0)) :
    started (Sh.pipelineLoop o place i (cs.map fun c => c.1.command m) kids).2.2 =
      (pipelineLoop i cs p).1.map fun l => (l.cmd.command m).argv := by
  induction cs generalizing i p kids with
  | nil => rfl
  | cons c cs ih =>
    obtain ⟨hone, hrest⟩ := hd
    have hiff := prepare_iff hone (hc (List.cons_ne_nil c cs))
    have hmore : (cs.map (fun c => c.1.command m) ≠ []) ↔ (!cs.isEmpty) = true := by simp
    have hlast : cs.map (fun c => c.1.command m) = [] ↔ (!cs.isEmpty) = false := by simp
    rw [List.map_cons, started_pipelineLoop_cons hone.forked, pipelineLoop]
    simp only [hmore, hlast]
    cases hprep : prepare i (!cs.isEmpty) c.1 c.2 p with
    | error t' =>
      rw [if_neg fun hall => ?_]
      · rfl
      · obtain ⟨h, hok⟩ := hiff.mpr hall
        cases hprep.symm.trans hok
    | ok h =>
      have hnext : cs ≠ [] → (h.next = none ↔ i + 1 = 0) := fun hne => by
        refine iff_of_false (fun hnone => hne ?_) (Nat.succ_ne_zero i)
        exact List.map_eq_nil_iff.mp (hlast.mpr ((prepare_next hprep).mp hnone))
      refine (if_pos (hiff.mp ⟨h, hprep⟩)).trans ?_
      rw [ih _ (hrest h hprep) hnext]
      rfl

/-- **A single command** is started as the first stage of several ones is, with nothing behind
it. -/
theorem runPipeline_fst (t : Fds α) (cs : List (Stage × Answers α)) :
    (t.runPipeline cs).1 = (pipelineLoop 0 cs ⟨t, none⟩).1 := by
  match cs with
  | [] => rfl
  | c₁ :: c₂ :: cs => rfl
  | [c] =>
    have hopen : openPipe t 0 false c.2.pipe = some ⟨t, none, none, none⟩ := rfl
    rw [runPipeline, pipelineLoop, runOne, List.isEmpty_nil, Bool.not_true, prepare, hopen]
    dsimp only
    cases redirect t none c.1.input c.2.input with
    | error t₁ => rfl
    | ok r₁ =>
      dsimp only
      cases redirect r₁.2 none c.1.output c.2.output with
      | error t₂ => rfl
      | ok r₂ =>
        dsimp only
        obtain ⟨why, t₃⟩ := which r₂.2 c.2.asPath c.2.probes
        cases why <;> rfl

theorem started_runOne {c : Command} (hpid : 0 < (o.fate place 0).pid) :
    started (Sh.runOne o place c).2 = started (Sh.pipelineLoop o place 0 [c] []).2.2 := by
  rw [Sh.runOne, Sh.pipelineLoop]
  simp only [ne_eq, not_true_eq_false, false_and, if_false, true_and,
    if_neg hpid.ne', if_neg hpid.not_gt]
  split_ifs <;> rfl

/-- **The stages of a pipeline that are started** are the same with descriptors and without. -/
theorem started_runPipeline (t : Fds α) (cs : List (Stage × Answers α))
    (hd : Decides (o.fate place) 0 cs ⟨t, none⟩)
    (background : Bool) :
    started (Sh.runPipeline o place (cs.map fun c => c.1.command m) background).2 =
      (t.runPipeline cs).1.map fun l => (l.cmd.command m).argv := by
  rw [runPipeline_fst, ← started_pipelineLoop [] hd fun _ => iff_of_true rfl rfl]
  match cs with
  | [] => cases background <;> rfl
  | [c] => exact started_runOne hd.1.forked
  | c₁ :: c₂ :: cs => exact (runPipeline_cons o place _ _ _ background).1

/-! ## There is such a world -/

theorem exists_decided (i : ℕ) (more : Bool) (s : Stage) (a : Answers α) (p : Turn α) :
    ∃ f, Decided f i more s a p := by
  cases hopen : openPipe p.fds i more a.pipe with
  | none =>
    have hno : ∀ h, openPipe p.fds i more a.pipe ≠ some h :=
      fun h hh => Option.some_ne_none h (hh.symm.trans hopen)
    exact ⟨⟨false, true, true, true, 1, 0⟩, Int.one_pos,
      fun _ => (congrArg Option.isSome hopen).symm,
      fun h hh => absurd hh (hno h), fun h _ hh => absurd hh (hno h),
      fun h _ _ hh => absurd hh (hno h)⟩
  | some h =>
    have hpipe : (true : Bool) = (openPipe p.fds i more a.pipe).isSome := by
      rw [hopen, Option.isSome_some]
    cases hin : redirect h.fds p.carried s.input a.input with
    | error t₁ =>
      refine ⟨⟨true, (openRedir h.fds s.input a.input).1.isSome, true, true, 1, 0⟩,
        Int.one_pos, fun _ => hpipe,
        fun h' hh => ?_, fun h' r hh hr => ?_, fun h' r r' hh hr => ?_⟩
      all_goals obtain rfl := Option.some.inj (hopen.symm.trans hh)
      · rfl
      · exact absurd ⟨r, hin.symm.trans hr⟩ not_exists_ok
      · exact absurd ⟨r, hin.symm.trans hr⟩ not_exists_ok
    | ok r₁ =>
      have hfound : ∃ b : Bool, ∀ r', redirect r₁.2 h.out s.output a.output = .ok r' →
          (b = true ↔ (which r'.2 a.asPath a.probes).1 = .found) := by
        cases redirect r₁.2 h.out s.output a.output with
        | error t₂ => exact ⟨true, fun r' hr => absurd ⟨r', hr⟩ not_exists_ok⟩
        | ok r₂ =>
          refine ⟨decide ((which r₂.2 a.asPath a.probes).1 = .found), fun r' hr => ?_⟩
          obtain rfl := Except.ok.inj hr
          exact decide_eq_true_iff
      obtain ⟨b, hb⟩ := hfound
      refine ⟨⟨true, (openRedir h.fds s.input a.input).1.isSome,
        (openRedir r₁.2 s.output a.output).1.isSome, b, 1, 0⟩,
        Int.one_pos, fun _ => hpipe, fun h' hh => ?_, fun h' r hh hr => ?_,
        fun h' r r' hh hr hr' => ?_⟩
      all_goals obtain rfl := Option.some.inj (hopen.symm.trans hh)
      · rfl
      · obtain rfl := Except.ok.inj (hin.symm.trans hr)
        rfl
      · obtain rfl := Except.ok.inj (hin.symm.trans hr)
        exact hb r' hr'

theorem Decides.congr {fates' : ℕ → Fate} (hd : Decides fates i cs p)
    (h : ∀ j, i ≤ j → fates' j = fates j) :
    Decides fates' i cs p := by
  induction cs generalizing i p with
  | nil => trivial
  | cons c cs ih =>
    refine ⟨?_, fun h' hok => ih (hd.2 h' hok) fun j hj => h j (Nat.le_of_succ_le hj)⟩
    rw [h i le_rfl]
    exact hd.1

/-- **For any descriptors there is such a world.** -/
theorem exists_decides (cs : List (Stage × Answers α)) (i : ℕ) (p : Turn α) :
    ∃ fates, Decides fates i cs p := by
  induction cs generalizing i p with
  | nil => exact ⟨fun _ => ⟨true, true, true, true, 1, 0⟩, trivial⟩
  | cons c cs ih =>
    obtain ⟨f, hf⟩ := exists_decided i (!cs.isEmpty) c.1 c.2 p
    cases hprep : prepare i (!cs.isEmpty) c.1 c.2 p with
    | error t' =>
      exact ⟨fun _ => f, hf, fun h hok => absurd ⟨h, hprep.symm.trans hok⟩ not_exists_ok⟩
    | ok h =>
      obtain ⟨fates, hd⟩ := ih (i + 1) ⟨(runStage h.fds c.1 h.inp h.out).2, h.next⟩
      refine ⟨fun j => if j = i then f else fates j, ?_, fun h' hok => ?_⟩
      · dsimp only
        rw [if_pos rfl]
        exact hf
      · obtain rfl := Except.ok.inj (hprep.symm.trans hok)
        exact hd.congr fun j hj => if_neg (Nat.ne_of_gt hj)

end Fds

end Sh

end Aurisys
