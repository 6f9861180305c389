import Aurisys.Sh.Text

/-!
# Jobs in the background

`run_job` passes over the `&` behind a job itself, and asks `read_op` for the operator all the same.
What is behind the `&` is then taken for one: its first character is lost, and the line is at its
end there. So `&` does what it should where nothing is behind it, and there only with a job of
several stages: `run_one`, which has the jobs of a single stage, knows nothing of the background and
waits.

## Main definitions

* `Starts`, `JobStarts` — each stage of a job can be started
* `LineText` — jobs with `;` and `&` behind them
* `RunsAll` — each job is started, and none in the background is waited for
* `LineText.Safe` — when that is so

## Main results

* `perform_spec` — what a job does
* `parseJob_text` — how it is read, with what is behind it
* `lineLoop_fits` — what is started fits
* `background_iff`
-/

namespace Aurisys

namespace Sh

variable {o : World} {place rest line : Str} {cs : List Command} {c : Command} {kids : Kids}
  {i k : ℕ} {mem : Mem}

/-! ## What a job does -/

/-- The arguments of what has been started. -/
def started (events : List Event) : List (List Str) := events.filterMap Event.argv?

/-- None of them is waited for. -/
def Quiet (events : List Event) : Prop := ∀ pid, Event.wait pid ∉ events

/-- **The stages from `i` on can be started**: there are pipes, the files of the first and the last
one can be opened, there are programs, and `fork` gives the shell a child for each. -/
def Starts (o : World) (place : Str) : ℕ → List Command → Prop
  | _, [] => True
  | i, c :: cs =>
    ¬(cs ≠ [] ∧ (o.fate place i).pipe = false) ∧ ¬(i = 0 ∧ c.input.kind ≠ 0 ∧
      (o.fate place i).input = false) ∧
      ¬(cs = [] ∧ c.output.kind ≠ 0 ∧ (o.fate place i).output = false) ∧
      (o.fate place i).found = true ∧
      0 < (o.fate place i).pid ∧ Starts o place (i + 1) cs

/-- One command, which the shell runs itself. -/
def IsBuiltin (cs : List Command) : Prop := ∃ c, cs = [c] ∧ c.isBuiltin = true

/-- **A job can be started.** -/
def JobStarts (o : World) (place : Str) (cs : List Command) : Prop :=
  IsBuiltin cs ∨ Starts o place 0 cs

/-- The job is `exit`, and the shell is not the first process. -/
def Ends (o : World) (cs : List Command) : Prop :=
  ∃ c, cs = [c] ∧ c.isBuiltin = true ∧ c.argv.headD [] = exitName ∧ o.first = false

theorem started_append (l l' : List Event) : started (l ++ l') = started l ++ started l' :=
  List.filterMap_append

theorem started_waits (kids : Kids) : started kids.waits = [] := by
  induction kids with
  | nil => rfl
  | cons kid kids ih => exact ih

/-- Nothing is started that is not a stage. -/
theorem pipelineLoop_sublist (o : World) (place : Str) (i : ℕ) (cs : List Command) (kids : Kids) :
    (started (pipelineLoop o place i cs kids).2.2).Sublist (cs.map Command.argv) := by
  induction cs generalizing i kids with
  | nil => exact List.nil_sublist _
  | cons c cs ih =>
    have hnone : (started kids.waits).Sublist ((c :: cs).map Command.argv) := by
      rw [started_waits]
      exact List.nil_sublist _
    rw [pipelineLoop]
    dsimp only
    split
    · exact hnone
    split
    · exact hnone
    split
    · exact hnone
    split
    · exact hnone
    split
    · exact List.nil_sublist _
    split
    · exact (ih (i + 1) kids).trans (List.sublist_cons_self _ _)
    · exact (ih (i + 1) _).cons_cons _

/-- **All stages are started** just when they can be. -/
theorem pipelineLoop_started (o : World) (place : Str) (i : ℕ) (cs : List Command) (kids : Kids) :
    started (pipelineLoop o place i cs kids).2.2 = cs.map Command.argv ↔ Starts o place i cs := by
  induction cs generalizing i kids with
  | nil => exact iff_of_true rfl trivial
  | cons c cs ih =>
    have hnone : started kids.waits ≠ (c :: cs).map Command.argv := by
      rw [started_waits]
      exact (List.cons_ne_nil _ _).symm
    rw [pipelineLoop, Starts]
    dsimp only
    by_cases hpipe : cs ≠ [] ∧ (o.fate place i).pipe = false
    · rw [if_pos hpipe]
      exact iff_of_false hnone fun h => h.1 hpipe
    rw [if_neg hpipe]
    by_cases hin : i = 0 ∧ c.input.kind ≠ 0 ∧ (o.fate place i).input = false
    · rw [if_pos hin]
      exact iff_of_false hnone fun h => h.2.1 hin
    rw [if_neg hin]
    by_cases hout : cs = [] ∧ c.output.kind ≠ 0 ∧ (o.fate place i).output = false
    · rw [if_pos hout]
      exact iff_of_false hnone fun h => h.2.2.1 hout
    rw [if_neg hout]
    cases hfound : (o.fate place i).found with
    | false =>
      rw [if_pos rfl]
      exact iff_of_false hnone fun h => absurd h.2.2.2.1 Bool.false_ne_true
    | true =>
      rw [if_neg (by decide)]
      by_cases hzero : (o.fate place i).pid = 0
      · rw [if_pos hzero]
        exact iff_of_false (List.cons_ne_nil _ _).symm fun h => absurd h.2.2.2.2.1 hzero.not_gt
      rw [if_neg hzero]
      by_cases hpid : (o.fate place i).pid < 0
      · rw [if_pos hpid]
        refine iff_of_false (fun heq => ?_) fun h => absurd h.2.2.2.2.1 hpid.not_gt
        have hlen := (pipelineLoop_sublist o place (i + 1) cs kids).length_le
        rw [heq, List.length_map, List.length_map, List.length_cons] at hlen
        omega
      · rw [if_neg hpid]
        have hpos : 0 < (o.fate place i).pid := lt_of_le_of_ne (Int.not_lt.mp hpid) (Ne.symm hzero)
        have hcons : started (.start (o.fate place i).pid c.argv ::
            (pipelineLoop o place (i + 1) cs (kids ++ [((o.fate place i).pid,
              (o.fate place i).status)])).2.2) =
            (c :: cs).map Command.argv ↔
            started (pipelineLoop o place (i + 1) cs
              (kids ++ [((o.fate place i).pid, (o.fate place i).status)])).2.2 =
              cs.map Command.argv :=
          ⟨fun h => (List.cons.inj h).2, fun h => congrArg (c.argv :: ·) h⟩
        rw [hcons, ih]
        exact ⟨fun h => ⟨hpipe, hin, hout, rfl, hpos, h⟩, fun h => h.2.2.2.2.2⟩

/-- If they can be, the loop is not left early, and nothing is waited for in it. -/
theorem pipelineLoop_quiet (kids : Kids) (h : Starts o place i cs) :
    (pipelineLoop o place i cs kids).1 = none ∧ Quiet (pipelineLoop o place i cs kids).2.2 := by
  induction cs generalizing i kids with
  | nil => exact ⟨rfl, fun _ hmem => absurd hmem List.not_mem_nil⟩
  | cons c cs ih =>
    obtain ⟨hpipe, hin, hout, hfound, hpid, hrest⟩ := h
    rw [pipelineLoop]
    dsimp only
    rw [if_neg hpipe, if_neg hin, if_neg hout, hfound, if_neg (by decide),
      if_neg hpid.ne', if_neg hpid.not_gt]
    obtain ⟨hnone, hquiet⟩ := ih (kids ++ [((o.fate place i).pid, (o.fate place i).status)]) hrest
    refine ⟨hnone, fun pid hmem => ?_⟩
    rcases List.mem_cons.mp hmem with h | h
    · exact absurd h (by simp)
    · exact hquiet pid h

/-- **A single command** is started just when it can be. It is waited for then, and the shell goes
on. -/
theorem runOne_started (o : World) (place : Str) (c : Command) :
    (started (runOne o place c).2 = [c.argv] ↔ Starts o place 0 [c]) ∧
    (started (runOne o place c).2).Sublist [c.argv] ∧
    (Starts o place 0 [c] → ¬Quiet (runOne o place c).2 ∧ ∃ n, (runOne o place c).1 =
      .status n) := by
  -- Nothing has been started where the command is given up.
  have hgiven : ∀ r : Outcome × List Event, started r.2 = [] → ¬Starts o place 0 [c] →
      (started r.2 = [c.argv] ↔ Starts o place 0 [c]) ∧ (started r.2).Sublist [c.argv] ∧
      (Starts o place 0 [c] → ¬Quiet r.2 ∧ ∃ n, r.1 = .status n) := by
    intro r hr hno
    rw [hr]
    exact ⟨iff_of_false (List.cons_ne_nil _ _).symm hno, List.nil_sublist _, fun h => absurd h hno⟩
  rw [runOne]
  by_cases hin : c.input.kind ≠ 0 ∧ (o.fate place 0).input = false
  · rw [if_pos hin]
    exact hgiven _ rfl fun h => h.2.1 ⟨rfl, hin⟩
  rw [if_neg hin]
  by_cases hout : c.output.kind ≠ 0 ∧ (o.fate place 0).output = false
  · rw [if_pos hout]
    exact hgiven _ rfl fun h => h.2.2.1 ⟨rfl, hout⟩
  rw [if_neg hout]
  by_cases hfound : (o.fate place 0).found = false
  · rw [if_pos hfound]
    exact hgiven _ rfl fun h => absurd (hfound.symm.trans h.2.2.2.1) (by decide)
  rw [if_neg hfound]
  by_cases hzero : (o.fate place 0).pid = 0
  · rw [if_pos hzero]
    exact hgiven _ rfl fun h => absurd h.2.2.2.2.1 hzero.not_gt
  rw [if_neg hzero]
  by_cases hpid : (o.fate place 0).pid < 0
  · rw [if_pos hpid]
    exact hgiven _ rfl fun h => absurd h.2.2.2.2.1 hpid.not_gt
  rw [if_neg hpid]
  have hyes : Starts o place 0 [c] := ⟨fun h => h.1 rfl, fun h => hin h.2, fun h => hout h.2,
    Bool.not_eq_false _ ▸ hfound, lt_of_le_of_ne (Int.not_lt.mp hpid) (Ne.symm hzero), trivial⟩
  exact ⟨iff_of_true rfl hyes, List.Sublist.refl _,
    fun _ => ⟨fun hquiet => hquiet _ (List.mem_cons_of_mem _ List.mem_cons_self), _, rfl⟩⟩

/-- It does not come to `exit`. -/
theorem runOne_ne_exit (o : World) (place : Str) (c : Command) : (runOne o place c).1 ≠ .exit := by
  rw [runOne]
  repeat' split
  all_goals exact Outcome.noConfusion

theorem pipelineLoop_ne_exit (o : World) (place : Str) (i : ℕ) (cs : List Command) (kids : Kids) :
    (pipelineLoop o place i cs kids).1 ≠ some .exit := by
  induction cs generalizing i kids with
  | nil => simp [pipelineLoop]
  | cons c cs ih =>
    rw [pipelineLoop]
    dsimp only
    split
    · simp
    split
    · simp
    split
    · simp
    split
    · simp
    split
    · simp
    split
    · exact ih _ _
    · exact ih _ _

/-- **Several stages.** If all of them can be started, the shell goes on. -/
theorem runPipeline_cons (o : World) (place : Str) (c c' : Command) (cs : List Command)
    (background : Bool) :
    started (runPipeline o place (c :: c' :: cs) background).2 =
      started (pipelineLoop o place 0 (c :: c' :: cs) []).2.2 ∧
    (runPipeline o place (c :: c' :: cs) background).1 ≠ .exit ∧
    (Starts o place 0 (c :: c' :: cs) → Quiet (runPipeline o place (c :: c' :: cs) true).2 ∧
      ∃ n, (runPipeline o place (c :: c' :: cs) background).1 = .status n) := by
  have hexit := pipelineLoop_ne_exit o place 0 (c :: c' :: cs) []
  have hquiet (h : Starts o place 0 (c :: c' :: cs)) := pipelineLoop_quiet [] h
  rw [runPipeline, runPipeline]
  · generalize pipelineLoop o place 0 (c :: c' :: cs) [] = r at hexit hquiet
    obtain ⟨left, kids, events⟩ := r
    refine ⟨?_, ?_, fun h => ?_⟩
    · cases left with
      | some left => rfl
      | none =>
        cases background with
        | true => rfl
        | false =>
          dsimp only
          rw [if_neg Bool.false_ne_true, started_append, started_waits, List.append_nil]
    · cases left with
      | some left => exact fun h => hexit (congrArg some h)
      | none => cases background <;> exact Outcome.noConfusion
    · obtain ⟨rfl, hquiet⟩ := hquiet h
      exact ⟨hquiet, by cases background <;> exact ⟨_, rfl⟩⟩
  · exact fun _ h => absurd (List.cons.inj h).2 (by simp)
  · exact fun _ h => absurd (List.cons.inj h).2 (by simp)

/-- **What a job does**: all of it is started just when it can be. In the background, it is not
waited for if it has several stages, or if the shell runs it itself. And then the shell goes on,
unless the job is `exit`. -/
theorem perform_spec (o : World) (place : Str) (background : Bool) (hne : cs ≠ []) :
    (started (perform o place cs background).2).Sublist (cs.map Command.argv) ∧
    (started (perform o place cs background).2 = cs.map Command.argv ↔ JobStarts o place cs) ∧
    (JobStarts o place cs → (Quiet (perform o place cs true).2 ↔ IsBuiltin cs ∨ 2 ≤ cs.length)) ∧
    ((perform o place cs background).1 = .exit ↔ Ends o cs) ∧
    (JobStarts o place cs → (perform o place cs background).1 ≠ .replaced) := by
  cases cs with
  | nil => exact absurd rfl hne
  | cons c cs =>
    have hother : ∀ {b : Bool}, ¬(cs = [] ∧ c.isBuiltin = true) →
        perform o place (c :: cs) b = runPipeline o place (c :: cs) b := by
      intro b h
      rw [perform, if_neg h]
    by_cases hbuiltin : cs = [] ∧ c.isBuiltin = true
    · obtain ⟨rfl, hc⟩ := hbuiltin
      have hrun : ∀ b, perform o place [c] b =
          (if c.argv.headD [] = exitName ∧ o.first = false then .exit
            else .status 0, [.builtin c.argv]) := by
        intro b
        rw [perform, if_pos ⟨rfl, hc⟩]
      rw [hrun, hrun]
      refine ⟨List.Sublist.refl _, iff_of_true rfl (Or.inl ⟨c, rfl, hc⟩), fun _ =>
        iff_of_true (fun pid hmem => ?_) (Or.inl ⟨c, rfl, hc⟩), ?_, fun _ => ?_⟩
      · exact absurd (List.mem_singleton.mp hmem) (by simp)
      · dsimp only
        split
        · next hexit => exact iff_of_true rfl ⟨c, rfl, hc, hexit.1, hexit.2⟩
        · next hexit =>
          refine iff_of_false (by simp) ?_
          rintro ⟨c', heq, -, hname, hfirst⟩
          obtain rfl := (List.cons.inj heq).1
          exact hexit ⟨hname, hfirst⟩
      · dsimp only
        split <;> exact Outcome.noConfusion
    · rw [hother hbuiltin, hother hbuiltin]
      have hno : ¬IsBuiltin (c :: cs) := by
        rintro ⟨c', heq, hc⟩
        obtain ⟨rfl, rfl⟩ := List.cons.inj heq
        exact hbuiltin ⟨rfl, hc⟩
      have hends : ¬Ends o (c :: cs) := fun ⟨c', heq, hc, _⟩ => hno ⟨c', heq, hc⟩
      rw [JobStarts, or_iff_right hno, or_iff_right hno]
      cases cs with
      | nil =>
        obtain ⟨hstarted, hsub, hgoes⟩ := runOne_started o place c
        refine ⟨hsub, hstarted, fun h => iff_of_false (hgoes h).1 (by simp),
          iff_of_false (runOne_ne_exit o place c) hends, fun h hreplaced => ?_⟩
        obtain ⟨n, hn⟩ := (hgoes h).2
        exact Outcome.noConfusion (hn.symm.trans hreplaced)
      | cons c' cs =>
        obtain ⟨hstarted, hexit, hgoes⟩ := runPipeline_cons o place c c' cs background
        rw [hstarted]
        refine ⟨pipelineLoop_sublist _ _ _ _ _, pipelineLoop_started _ _ _ _ _,
          fun h => iff_of_true (hgoes h).1 (by simp), iff_of_false hexit hends,
          fun h hreplaced => ?_⟩
        obtain ⟨n, hn⟩ := (hgoes h).2
        exact Outcome.noConfusion (hn.symm.trans hreplaced)

/-! ## What has been started fits -/

/-- What has been started is part of a job that fits. -/
def FromFitting (events : List Event) : Prop :=
  ∃ cs : List Command, cs.length ≤ kMaxStage ∧ (∀ c ∈ cs, CommandFits c) ∧
    (started events).Sublist (cs.map Command.argv)

variable {job : Job} {go : Bool} {ran : List Ran}

/-- **A job that has been read fits**, whatever its text was. -/
theorem commandFits_of_parseJob (hjob : parseJob o 0 line mem = .ok job) :
    ∀ st ∈ job.stages, CommandFits (st.command job.mem) := by
  obtain ⟨p, hp⟩ := parsed_of_parseJob hjob
  intro st hst
  obtain ⟨i, hi⟩ := List.mem_iff_getElem?.mp hst
  have hargv : (st.command job.mem).argv = st.origins.flatMap (Origin.now job.mem.hits) :=
    hp.reads i st hi job.mem fun _ _ => rfl
  refine ⟨?_, fun w hw => ?_⟩
  · rw [Stage.command, List.length_map, Stage.args, List.length_map, List.length_range]
    exact (hp.sized st hst).argc
  · rw [hargv] at hw
    obtain ⟨a, ha, hw⟩ := List.mem_flatMap.mp hw
    cases a with
    | kept s => exact (hp.sized st hst).words _ ha w hw
    | hits l =>
      obtain ⟨k, hk, rfl⟩ := List.mem_map.mp hw
      have hl : l ∈ expansions job.stages :=
        List.mem_flatMap.mpr ⟨st, hst, List.mem_filterMap.mpr ⟨_, ha, rfl⟩⟩
      have hcell := List.getElem?_eq_getElem (List.mem_range.mp hk)
      obtain ⟨l', hl', hsome⟩ := Overlay.exists_overlays (h := mem.hits) hl hcell
      have hhits : job.mem.hits = Overlay.overlays mem.hits (expansions job.stages) := hp.hits
      rw [← hhits] at hsome
      obtain ⟨st', hst', hl'⟩ := List.mem_flatMap.mp hl'
      obtain ⟨a', ha', horigin⟩ := List.mem_filterMap.mp hl'
      cases a' with
      | kept => exact absurd horigin (by simp [Origin.hits?])
      | hits l'' =>
        obtain rfl : l'' = l' := Option.some.inj horigin
        exact (hp.sized st' hst').words _ ha' _ (List.mem_of_getElem? hsome)

theorem execute_sublist (o : World) (place : Str) (hstages : job.stages ≠ []) :
    (started (execute o place job).2).Sublist
    (job.stages.map fun st => (st.command job.mem).argv) := by
  have hne : (job.stages.map fun st => st.command job.mem) ≠ [] :=
    fun hnil => hstages (List.map_eq_nil_iff.mp hnil)
  have hsub := (perform_spec o place job.background hne).1
  rwa [List.map_map] at hsub

theorem runJob_fits (place : Str) (go : Bool) (hjob : parseJob o 0 line mem = .ok job) :
    ∀ r ∈ (runJob o place job go).2, FromFitting r.events := by
  intro r hr
  rw [runJob] at hr
  split at hr
  · next hgo =>
    obtain rfl := List.mem_singleton.mp hr
    have hspec := parseJob_spec o 0 line mem
    rw [hjob] at hspec
    refine ⟨job.stages.map fun s => s.command job.mem, ?_, fun c hc => ?_, ?_⟩
    · rw [List.length_map]
      exact hspec.2.1
    · obtain ⟨st, hst, rfl⟩ := List.mem_map.mp hc
      exact commandFits_of_parseJob hjob st hst
    · rw [List.map_map]
      exact execute_sublist o place hgo.1
  · exact absurd hr List.not_mem_nil

/-- **What `run_line` starts fits.** -/
theorem lineLoop_fits (h : lineLoop o k line go mem = .ok ran) :
    ∀ r ∈ ran, FromFitting r.events := by
  induction k generalizing line go mem ran with
  | zero => exact absurd h (by simp [lineLoop])
  | succ k ih =>
    obtain ⟨job, hjob, hran⟩ := lineLoop_cases h
    have hrun := runJob_fits line go hjob
    rcases hran with rfl | ⟨go', ran', hrest, rfl⟩
    · exact hrun
    · exact fun r hr => (List.mem_append.mp hr).elim (hrun r) (ih hrest r)

theorem length_commands (j : PipeText o) (rest : Str) :
    (j.commands rest).length = j.more.length + 1 := by
  rw [PipeText.commands, List.length_map, length_intents]

/-- So a job that is started with all of its words fits. -/
theorem FromFitting.fits {events : List Event} {j : PipeText o} (h : FromFitting events)
    (hall : started events = (j.commands rest).map Command.argv) : j.Fits rest := by
  obtain ⟨cs, hlen, hfits, hsub⟩ := h
  rw [hall] at hsub
  refine ⟨?_, fun d hd => ?_⟩
  · have := hsub.length_le
    rw [List.length_map, List.length_map, length_commands] at this
    omega
  · obtain ⟨c', hc', hargv⟩ :=
      List.mem_map.mp (hsub.subset (List.mem_map_of_mem (List.mem_map_of_mem hd)))
    have := hfits c' hc'
    exact this.of_argv (by rw [hargv])

/-! ## The text of a line -/

/-- **Jobs with `;` and `&` between them.** There may be one behind the last job, too. -/
inductive LineText (o : World)
  | done (tail : Str) (h : Blanks tail)
  | last (j : PipeText o)
  | more (j : PipeText o) (background : Bool) (l : LineText o)

/-- `&` or `;`. -/
def separator (background : Bool) : UInt8 := if background then amp else semicolon

namespace LineText

def text : LineText o → Str
  | done tail _ => tail
  | last j => j.text
  | more j background l => j.text ++ separator background :: l.text

/-- The arguments that the stages of each job should have. -/
def jobs : LineText o → List (List (List Str))
  | done .. => []
  | last j => [(j.commands []).map Command.argv]
  | more j background l => (j.commands (separator background :: l.text)).map Command.argv :: jobs l

/-- Whether there is an `&` behind a job. -/
def flags : LineText o → List Bool
  | done .. => []
  | last _ => [false]
  | more _ background l => background :: flags l

/-- **When each job is started, and none in the background is waited for**: no job is larger than a
job can be, the words in it that match something do not disturb each other, all of its stages can be
started, and no job but the last one ends the shell. An `&` is only behind the last job, and that
has several stages, or the shell runs it itself. -/
def Safe : LineText o → Prop
  | done .. => True
  | last j => j.Whole [] ∧ JobStarts o j.text (j.commands [])
  | more j background l =>
    j.Whole (separator background :: l.text) ∧
    JobStarts o (j.text ++ separator background :: l.text)
      (j.commands (separator background :: l.text)) ∧
    if background then
      l.jobs = [] ∧ (IsBuiltin (j.commands (separator background :: l.text)) ∨ 1 ≤ j.more.length)
    else (l.jobs ≠ [] → ¬Ends o (j.commands (separator background :: l.text))) ∧ l.Safe

end LineText

/-- **Each job is started, once and with all of its words, and none in the background is waited
for.** -/
def RunsAll (l : LineText o) (r : Except Str (List Ran)) : Prop :=
  ∃ ran, r = .ok ran ∧ ran.map (fun x => started x.events) = l.jobs ∧
    ∀ x ∈ l.flags.zip ran, x.1 = true → Quiet x.2.events

/-! ## How a job is read -/

/-- **A job is read**, with the `&` behind it. The operator is looked for behind that. -/
theorem parseJob_text (j : PipeText o) (hrest : JobStop rest) (hfits : j.Fits rest) (mem : Mem) :
    ∃ job, parseJob o 0 (j.text ++ rest) mem = .ok job ∧ job.stages ≠ [] ∧
      List.Forall₂ Shows job.stages (j.intents rest) ∧
      job.background = decide (rest.head? = some amp ∧ rest.tail.head? ≠ some amp) ∧
      (job.op, job.rest) = readOp (if job.background then rest.tail else rest) := by
  obtain ⟨t, hloop, rfl, hshows⟩ := parse_pipeText j hrest hfits mem
  have hjob : ∀ b : Bool, b = decide (t.p.head? = some amp ∧ t.p.tail.head? ≠ some amp) →
      parseJob o 0 (j.text ++ t.p) mem = .ok ⟨(readOp (if b then t.p.tail else t.p)).2,
        (readOp (if b then t.p.tail else t.p)).1, t.stages, b, t.mem⟩ := by
    rintro _ rfl
    rw [parseJob, hloop]
  exact ⟨_, hjob _ rfl, stages_ne_nil hshows, hshows, rfl, rfl⟩

/-- Blanks are no job. -/
theorem lineLoop_blanks (h : Blanks rest) (mem : Mem) :
    lineLoop o (k + 1) rest true mem = .ok [] := by
  have hskip : skipBlanks rest = [] := by
    have := skipBlanks_append h []
    rwa [List.append_nil] at this
  have hturn : wordTurn o 0 0 ⟨rest, Stage.empty, mem⟩ = .ok none := by
    rw [wordTurn]
    dsimp only
    rw [hskip]
  have hstages : stageLoop o 0 (kMaxStage + 1) ⟨rest, [], mem⟩ = .ok ⟨[], [], mem⟩ := by
    rw [stageLoop]
    dsimp only
    rw [List.length_nil, wordLoop, hturn]
    dsimp only
    rw [hskip]
    rfl
  rw [lineLoop, parseJob, hstages]
  rfl

namespace LineText

/-- What is behind a `;` or an `&`: nothing, or a stage. -/
theorem text_cases (l : LineText o) :
    ((∃ tail h, l = done tail h) ∧ l.jobs = [] ∧ Blanks l.text) ∨
      (l.jobs ≠ [] ∧ ∃ (st : StageText o) (p : Str), l.text = st.text ++ p) := by
  cases l with
  | done tail h => exact Or.inl ⟨⟨tail, h, rfl⟩, rfl, h⟩
  | last j => exact Or.inr ⟨List.cons_ne_nil _ _, j.first, moreText j.more, rfl⟩
  | more j background l =>
    exact Or.inr ⟨List.cons_ne_nil _ _, j.first, moreText j.more ++ separator background :: l.text,
      List.append_assoc _ _ _⟩

theorem head?_ne (l : LineText o) : l.text.head? ≠ some amp := by
  rcases l.text_cases with ⟨-, -, hblanks⟩ | ⟨-, st, p, htext⟩
  · cases htext : l.text with
    | nil => simp
    | cons b p =>
      rw [htext] at hblanks
      intro hb
      obtain rfl := Option.some.inj hb
      exact absurd (hblanks _ List.mem_cons_self) (by decide)
  · rw [htext]
    exact st.head?_ne p (by decide) (Or.inr (Or.inr rfl))

/-- What is read as the operator behind an `&` is none of those that the line goes on with. -/
theorem readOp_ne (l : LineText o) :
    (readOp l.text).1 ≠ semicolon ∧ (readOp l.text).1 ≠ amp ∧ (readOp l.text).1 ≠ pipeSign := by
  rcases l.text_cases with ⟨-, -, hblanks⟩ | ⟨-, st, p, htext⟩
  · have hskip : skipBlanks l.text = [] := by
      have := skipBlanks_append hblanks []
      rwa [List.append_nil] at this
    rw [readOp, hskip]
    decide
  · obtain ⟨c, q, hskip, hpipe, hsemi, hamp⟩ := st.head p
    rw [htext, readOp, hskip]
    exact ⟨hsemi, hamp, hpipe⟩

end LineText

theorem jobStop_nil : JobStop [] := ⟨fun c hc => absurd hc (by simp), fun h => absurd h.1 (by simp)⟩

theorem jobStop_separator (background : Bool) (p : Str) : JobStop (separator background :: p) := by
  cases background with
  | true =>
    exact ⟨fun c hc => Or.inr (Or.inr (Option.some.inj hc).symm),
      fun h => absurd (Option.some.inj h.1) (by decide)⟩
  | false =>
    exact ⟨fun c hc => Or.inr (Or.inl (Option.some.inj hc).symm),
      fun h => absurd (Option.some.inj h.1) (by decide)⟩

/-! ## When each job is started -/

variable {l : LineText o} {j : PipeText o} {background : Bool} {r : Ran}

/-- The job whose text comes first is started with all of its words only if none of them disturbs
another. -/
theorem whole_of_started {jobs : List (List (List Str))} (hrest : JobStop rest)
    (h : lineLoop o k (j.text ++ rest) true mem = .ok ran)
    (hran : ran.map (fun x => started x.events) = (j.commands rest).map Command.argv :: jobs) :
    j.Whole rest := by
  obtain ⟨k, rfl⟩ : ∃ n, k = n + 1 := by
    cases k with
    | zero => exact absurd h (by simp [lineLoop])
    | succ k => exact ⟨k, rfl⟩
  have hall := lineLoop_fits h
  obtain ⟨job, hjob, hcases⟩ := lineLoop_cases h
  cases ran with
  | nil => exact absurd hran (by simp)
  | cons r ran =>
    have hstarted : started r.events = (j.commands rest).map Command.argv := (List.cons.inj hran).1
    have hfits : j.Fits rest := (hall r List.mem_cons_self).fits hstarted
    obtain ⟨job', hjob', hstages, hshows, -⟩ := parseJob_text j hrest hfits mem
    obtain rfl := Except.ok.inj (hjob.symm.trans hjob')
    refine ⟨hfits, (commands_iff hjob hshows).1.mp ?_⟩
    have hone : (runJob o (j.text ++ rest) job true).2 =
        [⟨j.text ++ rest, (execute o (j.text ++ rest) job).2⟩] := by
          rw [runJob, if_pos ⟨hstages, rfl⟩]
    have hr : r = ⟨j.text ++ rest, (execute o (j.text ++ rest) job).2⟩ := by
      rw [hone] at hcases
      rcases hcases with hcases | ⟨-, ran', -, hcases⟩
      · exact (List.cons.inj hcases).1
      · exact (List.cons.inj hcases).1
    have hsub := execute_sublist o (j.text ++ rest) hstages
    rw [hr] at hstarted
    rw [hstarted] at hsub
    -- There are as many stages as there should be, so none of them is left out.
    refine (hsub.eq_of_length ?_).symm
    rw [List.length_map, List.length_map, length_commands, hshows.length_eq, length_intents]

/-- A line whose first job is the last one that is run. -/
theorem runsAll_single : RunsAll (.more j background l) (.ok [r]) ↔ l.jobs = [] ∧
    started r.events = (j.commands (separator background :: l.text)).map Command.argv ∧
    (background = true → Quiet r.events) := by
  constructor
  · rintro ⟨ran, hran, hjobs, hquiet⟩
    obtain rfl := Except.ok.inj hran
    obtain ⟨hstarted, hnil⟩ := List.cons.inj hjobs
    exact ⟨hnil.symm, hstarted, hquiet (background, r) (List.mem_cons_self)⟩
  · rintro ⟨hnil, hstarted, hquiet⟩
    refine ⟨[r], rfl, ?_, fun x hx => ?_⟩
    · rw [LineText.jobs, hnil, ← hstarted]
      rfl
    · obtain rfl := List.mem_singleton.mp (by simpa [LineText.flags] using hx)
      exact hquiet

/-- A line that goes on behind its first job. -/
theorem runsAll_cons {e : Except Str (List Ran)} : RunsAll (.more j false l) (e.map ([r] ++ ·)) ↔
    started r.events = (j.commands (separator false :: l.text)).map Command.argv ∧ RunsAll l e := by
  cases e with
  | error q =>
    exact iff_of_false (fun ⟨ran, hran, _⟩ => absurd hran (by simp [Except.map]))
      fun ⟨_, ran, hran, _⟩ => absurd hran (by simp)
  | ok ran =>
    constructor
    · rintro ⟨ran', hran, hjobs, hquiet⟩
      obtain rfl : [r] ++ ran = ran' := Except.ok.inj hran
      obtain ⟨hstarted, hjobs⟩ := List.cons.inj hjobs
      exact ⟨hstarted, ran, rfl, hjobs, fun x hx => hquiet x (List.mem_cons_of_mem _ hx)⟩
    · rintro ⟨hstarted, ran', hran, hjobs, hquiet⟩
      obtain rfl := Except.ok.inj hran
      refine ⟨[r] ++ ran, rfl, ?_, fun x hx => ?_⟩
      · rw [LineText.jobs, ← hjobs, ← hstarted]
        rfl
      · rcases List.mem_cons.mp hx with rfl | hx
        · exact fun h => absurd h Bool.false_ne_true
        · exact hquiet x hx

/-- How a job runs that has been read with all of its words. -/
def PipeText.run (j : PipeText o) (rest : Str) (background : Bool) : Ran :=
  ⟨j.text ++ rest, (perform o (j.text ++ rest) (j.commands rest) background).2⟩

theorem runJob_text (hstages : job.stages ≠ [])
    (hcommands : (job.stages.map fun s => s.command job.mem) = j.commands rest)
    (hback : job.background = background) : runJob o (j.text ++ rest) job true =
      ((perform o (j.text ++ rest) (j.commands rest) background).1, [j.run rest background]) := by
  rw [runJob, if_pos ⟨hstages, rfl⟩, execute, hcommands, hback]
  rfl

/-- A job that is started with all of its words. -/
theorem parseJob_whole (hrest : JobStop rest) (hwhole : j.Whole rest) (mem : Mem) :
    ∃ job, parseJob o 0 (j.text ++ rest) mem = .ok job ∧ job.stages ≠ [] ∧
      (job.stages.map fun s => s.command job.mem) = j.commands rest ∧
      job.background = decide (rest.head? = some amp ∧ rest.tail.head? ≠ some amp) ∧
      (job.op, job.rest) = readOp (if job.background then rest.tail else rest) := by
  obtain ⟨job, hjob, hstages, hshows, hend⟩ := parseJob_text j hrest hwhole.fits mem
  exact ⟨job, hjob, hstages, (commands_iff hjob hshows).2 hwhole.agree, hend⟩

/-- **A line that ends with a job.** -/
theorem lineLoop_last (hwhole : j.Whole []) (mem : Mem) :
    lineLoop o (k + 1) (j.text ++ []) true mem = .ok [j.run [] false] := by
  obtain ⟨job, hjob, hstages, hcommands, hback, hop⟩ := parseJob_whole jobStop_nil hwhole mem
  have hback : job.background = false := hback
  rw [hback] at hop
  have hop : job.op = 0 := congrArg Prod.fst hop
  rw [lineLoop, hjob]
  dsimp only
  rw [runJob_text hstages hcommands hback, hop]
  cases (perform o (j.text ++ []) (j.commands []) false).1 <;> rfl

/-- **A job with an `&` behind it** is the last one that is run. -/
theorem lineLoop_amp (hwhole : j.Whole (separator true :: l.text)) (mem : Mem) :
    lineLoop o (k + 1) (j.text ++ separator true :: l.text) true mem =
      .ok [j.run (separator true :: l.text) true] := by
  obtain ⟨job, hjob, hstages, hcommands, hback, hop⟩ :=
    parseJob_whole (jobStop_separator true l.text) hwhole mem
  have hback : job.background = true := hback.trans (decide_eq_true ⟨rfl, l.head?_ne⟩)
  rw [hback] at hop
  have hop : job.op = (readOp l.text).1 := congrArg Prod.fst hop
  obtain ⟨hsemi, hamp, hpipe⟩ := l.readOp_ne
  rw [← hop] at hsemi hamp hpipe
  rw [lineLoop, hjob]
  dsimp only
  rw [runJob_text hstages hcommands hback]
  dsimp only
  cases (perform o (j.text ++ separator true :: l.text)
    (j.commands (separator true :: l.text)) true).1 with
  | exit => rfl
  | replaced => rfl
  | status n =>
    dsimp only
    rw [if_neg hsemi, if_neg hamp, if_neg hpipe]

/-- **A job with a `;` behind it**: the line goes on there, if the shell does. -/
theorem lineLoop_semicolon (hwhole : j.Whole (separator false :: l.text)) (mem : Mem) :
    match (perform o (j.text ++ separator false :: l.text) (j.commands (separator false :: l.text))
      false).1 with
    | .status _ => ∃ mem', lineLoop o (k + 1) (j.text ++ separator false :: l.text) true mem =
        (lineLoop o k l.text true mem').map ([j.run (separator false :: l.text) false] ++ ·)
    | _ => lineLoop o (k + 1) (j.text ++ separator false :: l.text) true mem =
        .ok [j.run (separator false :: l.text) false] := by
  obtain ⟨job, hjob, hstages, hcommands, hback, hop⟩ :=
    parseJob_whole (jobStop_separator false l.text) hwhole mem
  have hback : job.background = false :=
    hback.trans (decide_eq_false fun h => absurd (Option.some.inj h.1) (by decide))
  rw [hback] at hop
  have hread : readOp (separator false :: l.text) = (semicolon, l.text) := by
    rw [readOp, show separator false :: l.text = semicolon :: l.text from rfl,
      skipBlanks_of_head (by decide)]
    rfl
  obtain ⟨hop, hrest⟩ := Prod.mk.inj (hop.trans hread)
  rw [lineLoop, hjob]
  dsimp only
  rw [runJob_text hstages hcommands hback, hop, hrest]
  dsimp only
  cases (perform o (j.text ++ separator false :: l.text) (j.commands (separator false :: l.text))
    false).1 with
  | exit => rfl
  | replaced => rfl
  | status n => exact ⟨job.mem, if_pos rfl⟩

/-- **When each job on a line is started, and none in the background is waited for.** -/
theorem lineLoop_iff (hk : l.text.length < k) :
    RunsAll l (lineLoop o k l.text true mem) ↔ l.Safe := by
  induction l generalizing k mem with
  | done tail h =>
    obtain ⟨k, rfl⟩ : ∃ n, k = n + 1 := ⟨k - 1, by omega⟩
    exact iff_of_true ⟨[], lineLoop_blanks h mem, rfl,
      fun x hx => absurd hx List.not_mem_nil⟩ trivial
  | last j =>
    obtain ⟨k, rfl⟩ : ∃ n, k = n + 1 := ⟨k - 1, by omega⟩
    by_cases hwhole : j.Whole []
    · have hstarts := (perform_spec o (j.text ++ []) false (commands_ne_nil j [])).2.1
      have hloop := lineLoop_last (k := k) hwhole mem
      rw [List.append_nil] at hstarts hloop
      rw [LineText.Safe, LineText.text, hloop, ← hstarts]
      constructor
      · rintro ⟨ran, hran, hjobs, -⟩
        obtain rfl := Except.ok.inj hran
        have hjobs := (List.cons.inj hjobs).1
        rw [PipeText.run, List.append_nil] at hjobs
        exact ⟨hwhole, hjobs⟩
      · rintro ⟨-, hjobs⟩
        refine ⟨_, rfl, ?_, fun x hx => ?_⟩
        · rw [LineText.jobs, ← hjobs, PipeText.run, List.append_nil]
          rfl
        · obtain rfl := List.mem_singleton.mp hx
          exact fun h => absurd h Bool.false_ne_true
    · refine iff_of_false ?_ fun h => hwhole h.1
      rintro ⟨ran, hran, hjobs, -⟩
      rw [LineText.text, ← List.append_nil j.text] at hran
      exact hwhole (whole_of_started jobStop_nil hran hjobs)
  | more j background l ih =>
    obtain ⟨k, rfl⟩ : ∃ n, k = n + 1 := ⟨k - 1, by omega⟩
    have hlen : l.text.length < k := by
      rw [LineText.text, List.length_append, List.length_cons] at hk
      omega
    by_cases hwhole : j.Whole (separator background :: l.text)
    · have hne := commands_ne_nil j (separator background :: l.text)
      cases background with
      | true =>
        obtain ⟨-, hstarts, hquiet, -⟩ :=
          perform_spec o (j.text ++ separator true :: l.text) true hne
        rw [LineText.Safe, LineText.text, lineLoop_amp hwhole, runsAll_single,
          if_pos rfl, ← hstarts]
        rw [length_commands] at hquiet
        constructor
        · rintro ⟨hnil, hjobs, hwait⟩
          refine ⟨hwhole, hjobs, hnil, ?_⟩
          exact ((hquiet (hstarts.mp hjobs)).mp (hwait rfl)).imp_right Nat.le_of_succ_le_succ
        · rintro ⟨-, hjobs, hnil, hkind⟩
          refine ⟨hnil, hjobs, fun _ => ?_⟩
          exact (hquiet (hstarts.mp hjobs)).mpr (hkind.imp_right Nat.succ_le_succ)
      | false =>
        obtain ⟨-, hstarts, -, hexit, hreplaced⟩ :=
          perform_spec o (j.text ++ separator false :: l.text) false hne
        have hloop := lineLoop_semicolon (k := k) hwhole mem
        rw [LineText.Safe, LineText.text, if_neg Bool.false_ne_true, ← hstarts]
        rw [← hstarts] at hreplaced
        cases hleft : (perform o (j.text ++ separator false :: l.text)
            (j.commands (separator false :: l.text)) false).1 with
        | status n =>
          rw [hleft] at hloop hexit
          obtain ⟨mem', hloop⟩ := hloop
          have hends : ¬Ends o (j.commands (separator false :: l.text)) :=
            fun h => Outcome.noConfusion (hexit.mpr h)
          rw [hloop, runsAll_cons, ih hlen]
          exact ⟨fun h => ⟨hwhole, h.1, fun _ => hends, h.2⟩, fun h => ⟨h.2.1, h.2.2.2⟩⟩
        | exit =>
          rw [hleft] at hloop hexit
          have hends : Ends o (j.commands (separator false :: l.text)) := hexit.mp rfl
          rw [hloop, runsAll_single]
          constructor
          · rintro ⟨hnil, hjobs, -⟩
            refine ⟨hwhole, hjobs, fun h => absurd hnil h, ?_⟩
            rcases l.text_cases with ⟨⟨tail, h, rfl⟩, -⟩ | ⟨hsome, -⟩
            · trivial
            · exact absurd hnil hsome
          · rintro ⟨-, hjobs, hlast, -⟩
            exact ⟨of_not_not fun h => hlast h hends, hjobs, fun h => absurd h Bool.false_ne_true⟩
        | replaced =>
          -- The shell has gone the way of a child, which it has not started.
          rw [hleft] at hloop
          rw [hloop, runsAll_single]
          exact iff_of_false (fun h => hreplaced h.2.1 hleft) fun h => hreplaced h.2.1 hleft
    · refine iff_of_false ?_ fun h => hwhole h.1
      rintro ⟨ran, hran, hjobs, -⟩
      exact hwhole (whole_of_started (jobStop_separator background l.text) hran hjobs)

/-- **When `run_line` starts each job, and waits for none in the background.** -/
theorem background_iff (o : World) (l : LineText o) (mem : Mem) :
    RunsAll l (runLine o l.text mem) ↔ l.Safe :=
  lineLoop_iff (Nat.lt_succ_self _)

/-- `a&b`. -/
def twoLetters : LineText World.bare :=
  .more (PipeText.letter World.bare 97 (by decide)) true
    (.last (PipeText.letter World.bare 98 (by decide)))

/-- `b` is not started. -/
theorem amp_loses : ¬RunsAll twoLetters (runLine World.bare twoLetters.text Mem.clear) := by
  rintro ⟨ran, hran, hjobs, -⟩
  have hcode : (runLine World.bare twoLetters.text Mem.clear).toOption.map
      (List.map fun x => started x.events) = some [[[[97]]]] := by decide +kernel
  have hspec : twoLetters.jobs = [[[[97]]], [[[98]]]] := by decide +kernel
  rw [hran] at hcode
  rw [hspec] at hjobs
  exact absurd ((Option.some.inj hcode).symm.trans hjobs) (by decide)

end Sh

end Aurisys
