import Aurisys.Kernel.PipeEnds
import Aurisys.Lib.Descriptors
import Aurisys.Sh.Job

/-!
# The descriptors of the shell

To start a pipeline the shell opens pipes and files, and copies what it has itself for a stage that
brings nothing of its own. A child gets a copy of the whole table. It moves its input to `0` and its
output to `1` and closes nothing else, and the shell closes what it gave to the child. What it keeps
for the next stage is the end of a pipe, and there are five places where it gives up in between.

It gives back what it opened in all of them. But when a child is copied, the end that is kept for
the next stage is in the table already, and the child has never heard of it.

## Scope

What `open` and `pipe` say is not decided here, and neither is what the pipes of others are called:
a descriptor is an end of a pipe of this pipeline or it is something else. `fork` is taken to
succeed.

## Main definitions

* `runStage`, `which`, `redirect`, `prepare`, `pipelineLoop`, `runOne`, `runPipeline`
* `Launch.OwnEnds` — a child has no pipe but those that are its own
* `Launch.Spared` — the end that is kept back is overwritten by chance

## Main results

* `keeps_fds` — nothing is left open
* `ownEnds_iff_spared` — what a child has
* `no_launch_of_ownEnds` — if the shell has an input and an output, a child always has too much
-/

namespace Aurisys

namespace Sh

/-! ## The code -/

/-- What a descriptor is: the end of a pipe that `run_pipeline` put behind a stage, or something
else. -/
inductive File (α : Type) where
  | pipeEnd (stage : ℕ) (write : Bool)
  | other (x : α)
deriving DecidableEq

/-- The descriptors of a process. -/
abbrev Fds (α : Type) := Table kMaxFd (File α)

namespace Fds

/-- What the rest of the system says while a stage is prepared. -/
structure Answers (α : Type) where
  /-- There is a pipe that is not open. -/
  pipe : Bool
  /-- What there is to read from. -/
  input : Option α
  /-- What there is to write to. -/
  output : Option α
  /-- The name of the command has a slash. -/
  asPath : Bool
  /-- What there is under the names that `which` tries, and whether it is a directory. -/
  probes : List (Option (α × Bool))

/-- `which_result`. -/
inductive WhichResult where
  | found
  | noSuchCommand
  | notAProgram
  | noSuchFile
deriving DecidableEq

variable {α : Type}

/-- `open`, of what there is. -/
def openFile (t : Fds α) (x : Option α) : Option (Fin kMaxFd) × Fds α :=
  x.elim (none, t) fun x => t.install (.other x)

/-- `open_for`, which `open_redir` is but for a message. -/
def openRedir (t : Fds α) (r : Redir) (x : Option α) : Option (Fin kMaxFd) × Fds α :=
  if r.kind = 0 then (none, t) else t.openFile x

/-- `which`. -/
def which (t : Fds α) (asPath : Bool) : List (Option (α × Bool)) → WhichResult × Fds α
  | [] => (if asPath then .noSuchFile else .noSuchCommand, t)
  | p :: ps =>
    match t.openFile (p.map Prod.fst) with
    | (none, t) => which t asPath ps
    | (some fd, t) => (if p.any Prod.snd then .notAProgram else .found, t.close fd)

/-- What the shell has itself is copied for a stage that has nothing and asks for nothing. -/
def inherit (t : Fds α) (o : Option (Fin kMaxFd)) (r : Redir) (fd : Fin kMaxFd) :
    Option (Fin kMaxFd) × Fds α :=
  if o = none ∧ r.kind = 0 then t.dup fd else (o, t)

/-- `run_stage`: the descriptors of the child at `execve`, and those of the shell. -/
def runStage (t : Fds α) (s : Stage) (inp out : Option (Fin kMaxFd)) : Fds α × Fds α :=
  let i := t.inherit inp s.input 0
  let o := i.2.inherit out s.output 1
  ((o.2.move i.1 0).move o.1 1, (o.2.closeAt i.1).closeAt o.1)

/-- A descriptor that is not there is opened, if the stage asks for it. If it cannot be, that is an
error. -/
def redirect (t : Fds α) (o : Option (Fin kMaxFd)) (r : Redir) (x : Option α) :
    Except (Fds α) (Option (Fin kMaxFd) × Fds α) :=
  if o = none ∧ r.kind ≠ 0 then
    match openRedir t r x with
    | (some fd, t) => .ok (some fd, t)
    | (none, t) => .error t
  else .ok (o, t)

/-- `run_one`: what `execve` is called with, and the descriptors of the shell in the end. -/
def runOne (t : Fds α) (s : Stage) (a : Answers α) : Option (Fds α) × Fds α :=
  match redirect t none s.input a.input with
  | .error t => (none, t)
  | .ok (inp, t) =>
    match redirect t none s.output a.output with
    | .error t => (none, t.closeAt inp)
    | .ok (out, t) =>
      match which t a.asPath a.probes with
      | (.found, t) => (some (runStage t s inp out).1, (runStage t s inp out).2)
      | (_, t) => (none, (t.closeAt inp).closeAt out)

/-- The state of the loop in `run_pipeline`: the descriptors, and `carried`. -/
structure Turn (α : Type) where
  fds : Fds α
  carried : Option (Fin kMaxFd)

/-- What there is when a stage is started: `in`, `out` and `next_in`. -/
structure Ready (α : Type) where
  fds : Fds α
  inp : Option (Fin kMaxFd)
  out : Option (Fin kMaxFd)
  next : Option (Fin kMaxFd)

/-- The pipe behind a stage, if another one follows. -/
def openPipe (t : Fds α) (i : ℕ) (more ok : Bool) : Option (Ready α) :=
  if more then
    if ok then (t.pipe (.pipeEnd i false) (.pipeEnd i true)).map fun p => ⟨p.2.2, none,
      some p.2.1, some p.1⟩
    else none
  else some ⟨t, none, none, none⟩

/-- The loop up to `run_stage`. It gives up with everything closed. -/
def prepare (i : ℕ) (more : Bool) (s : Stage) (a : Answers α) (p : Turn α) :
    Except (Fds α) (Ready α) :=
  match openPipe p.fds i more a.pipe with
  | none => .error (p.fds.closeAt p.carried)
  | some h =>
    match redirect h.fds p.carried s.input a.input with
    | .error t => .error ((t.closeAt h.out).closeAt h.next)
    | .ok (inp, t) =>
      match redirect t h.out s.output a.output with
      | .error t => .error ((t.closeAt inp).closeAt h.next)
      | .ok (out, t) =>
        match which t a.asPath a.probes with
        | (.found, t) => .ok ⟨t, inp, out, h.next⟩
        | (_, t) => .error (((t.closeAt inp).closeAt out).closeAt h.next)

/-- A stage has been started. -/
structure Launch (α : Type) where
  stage : ℕ
  /-- Another one follows. -/
  more : Bool
  cmd : Stage
  /-- The state in front of it. -/
  before : Turn α
  /-- The descriptors of the child. -/
  child : Fds α

/-- The loop of `run_pipeline` from a stage on, and what it closes in the end. -/
def pipelineLoop (i : ℕ) : List (Stage × Answers α) → Turn α → List (Launch α) × Fds α
  | [], p => ([], p.fds.closeAt p.carried)
  | c :: cs, p =>
    match prepare i (!cs.isEmpty) c.1 c.2 p with
    | .error t => ([], t)
    | .ok h =>
      let kid := runStage h.fds c.1 h.inp h.out
      let rest := pipelineLoop (i + 1) cs ⟨kid.2, h.next⟩
      (⟨i, !cs.isEmpty, c.1, p, kid.1⟩ :: rest.1, rest.2)

/-- `run_pipeline`: the stages that are started, and the descriptors of the shell in the end. -/
def runPipeline (t : Fds α) : List (Stage × Answers α) → List (Launch α) × Fds α
  | [c] =>
    let one := runOne t c.1 c.2
    (one.1.toList.map fun child => ⟨0, false, c.1, ⟨t, none⟩, child⟩, one.2)
  | cs => pipelineLoop 0 cs ⟨t, none⟩

/-! ## What a child should have -/

/-- The only pipes of a process are those of a stage: it reads from the one in front of it at `0`,
and writes to the one behind it at `1`. -/
def Own (i : ℕ) (child : Fds α) : Prop :=
  ∀ fd j w, child fd = some (.pipeEnd j w) → fd = 0 ∧ w = false ∧ j + 1 = i ∨
    fd = 1 ∧ w = true ∧ j = i

/-- **A child has no pipe but its own.** -/
def Launch.OwnEnds (l : Launch α) : Prop := Own l.stage l.child

/-- A descriptor that reads from the pipe behind a stage. -/
def isReader (i : ℕ) : Option (File α) → Bool
  | some (.pipeEnd j false) => j = i
  | _ => false

/-- `readers` of the pipe behind a stage, if these processes are left. -/
def readers (i : ℕ) (ts : List (Fds α)) : ℕ :=
  (ts.map fun t => (List.finRange kMaxFd).countP fun fd => isReader i (t fd)).sum

/-- **A writer is not left waiting**: when the stage that reads from it is gone, the shell and the
other stages have no descriptor that reads from its pipe, and `pipe_wr` returns. -/
def Unread (ls : List (Launch α)) (t : Fds α) : Prop :=
  ∀ i, readers i (t :: (ls.filter fun l => l.stage ≠ i + 1).map Launch.child) = 0

/-- The end that is kept for the next stage is where the child puts something else. And the last
stage, which copies the output of the shell, does not get its own input for it. -/
def Launch.Spared (l : Launch α) : Prop :=
  if l.more then
    if l.before.fds 0 = none then l.before.carried ≠ none ∨ l.cmd.input.kind ≠ 0
    else l.before.fds 1 = none
  else
    l.before.fds 0 ≠ none ∧ (l.cmd.output.kind ≠ 0 ∨ l.before.fds.lowest = none ∨
      l.before.carried ≠ some 1)

/-- The descriptors of a shell that has no pipe of this pipeline. -/
def entry (t : Table kMaxFd α) : Fds α := fun fd => (t fd).map .other

/-! ## What is opened is closed -/

variable {t t' t₀ : Fds α} {o inp out : Option (Fin kMaxFd)} {l : List (Fin kMaxFd)}
  {s : Stage} {a : Answers α}
  {i : ℕ} {more : Bool} {p : Turn α} {r : Redir} {x : Option α} {h : Ready α}

/-- `open` takes the lowest descriptor that is free, or none and nothing happens. -/
theorem openFile_cases (t : Fds α) (x : Option α) : t.openFile x = (none, t) ∨
    ∃ fd y, t.lowest = some fd ∧ t.openFile x = (some fd,
      Function.update t fd (some (.other y))) := by
  rw [openFile]
  cases x with
  | none => exact .inl rfl
  | some y =>
    rw [Option.elim_some, Table.install]
    cases hlow : t.lowest with
    | none => exact .inl rfl
    | some fd => exact .inr ⟨fd, y, rfl, rfl⟩

/-- **`which` closes what it opens.** -/
theorem which_fds (t : Fds α) (asPath : Bool) (ps : List (Option (α × Bool))) :
    (t.which asPath ps).2 = t := by
  induction ps with
  | nil => rfl
  | cons p ps ih =>
    rw [which]
    rcases t.openFile_cases (p.map Prod.fst) with hopen | ⟨fd, y, hlow, hopen⟩
    · rw [hopen]
      exact ih
    · rw [hopen]
      show Function.update (Function.update t fd _) fd none = t
      rw [Function.update_idem, ← Table.free_of_lowest hlow, Function.update_eq_self]

theorem redirect_of_given (hgiven : o ≠ none ∨ r.kind = 0) : t.redirect o r x = .ok (o, t) := by
  rw [redirect, if_neg fun hne => hgiven.elim (fun ho => ho hne.1) hne.2]

/-- A redirection fails with the table as it was. Or it takes the lowest descriptor that is free. -/
theorem redirect_of_asked (ho : o = none) (hr : r.kind ≠ 0) : t.redirect o r x = .error t ∨
    ∃ fd y, t.lowest = some fd ∧ t.redirect o r x = .ok (some fd,
      Function.update t fd (some (.other y))) := by
  rw [redirect, if_pos ⟨ho, hr⟩, openRedir, if_neg hr]
  rcases t.openFile_cases x with hopen | ⟨fd, y, hlow, hopen⟩
  · rw [hopen]
    exact .inl rfl
  · rw [hopen]
    exact .inr ⟨fd, y, hlow, rfl⟩

theorem redirect_error (hred : t.redirect o r x = .error t') : o = none ∧ t' = t := by
  by_cases hgiven : o ≠ none ∨ r.kind = 0
  · rw [redirect_of_given hgiven] at hred
    exact absurd hred nofun
  · obtain ⟨ho, hr⟩ := not_or.mp hgiven
    rcases redirect_of_asked (t := t) (x := x) (not_not.mp ho) hr with hno | ⟨fd, y, -, hok⟩
    · exact ⟨not_not.mp ho, (Except.error.inj (hno.symm.trans hred)).symm⟩
    · rw [hok] at hred
      exact absurd hred nofun

/-- What a redirection leaves. -/
theorem redirect_ok (hred : t.redirect o r x = .ok (out, t')) :
    out = o ∧ t' = t ∧ (o ≠ none ∨ r.kind = 0) ∨
    o = none ∧ r.kind ≠ 0 ∧ ∃ fd y, out = some fd ∧ t.lowest = some fd ∧
      t' = Function.update t fd (some (.other y)) := by
  by_cases hgiven : o ≠ none ∨ r.kind = 0
  · rw [redirect_of_given hgiven] at hred
    obtain ⟨rfl, rfl⟩ := Prod.mk.inj (Except.ok.inj hred)
    exact .inl ⟨rfl, rfl, hgiven⟩
  · obtain ⟨ho, hr⟩ := not_or.mp hgiven
    rcases redirect_of_asked (t := t) (x := x) (not_not.mp ho) hr with hno | ⟨fd, y, hlow, hok⟩
    · rw [hno] at hred
      exact absurd hred nofun
    · obtain ⟨rfl, rfl⟩ := Prod.mk.inj (Except.ok.inj (hok.symm.trans hred))
      exact .inr ⟨not_not.mp ho, hr, fd, y, rfl, hlow, rfl⟩

theorem over_redirect (ht : t₀.Over t (o.toList ++ l)) (hred : t.redirect o r x = .ok (out, t')) :
    t₀.Over t' (out.toList ++ l) := by
  rcases redirect_ok hred with ⟨rfl, rfl, -⟩ | ⟨rfl, -, fd, y, rfl, hlow, rfl⟩
  · exact ht
  · exact Table.Over.put ht (Table.free_of_lowest hlow) _

theorem over_inherit (fd : Fin kMaxFd) (ht : t₀.Over t (o.toList ++ l)) :
    t₀.Over (t.inherit o r fd).2 ((t.inherit o r fd).1.toList ++ l) := by
  rw [inherit]
  split
  · next hnone =>
    rw [hnone.1] at ht
    exact Table.Over.dup ht fd
  · exact ht

/-- **A stage has been started**, and the shell has closed what it gave to the child. -/
theorem over_runStage (ht : t₀.Over t (inp.toList ++ (out.toList ++ l))) :
    t₀.Over (t.runStage s inp out).2 l := by
  have hin := over_inherit (r := s.input) 0 ht
  have hout := over_inherit (o := out) (r := s.output) 1 hin.swap
  exact hout.swap.close.close

/-- **One command.** -/
theorem runOne_fds (t : Fds α) (s : Stage) (a : Answers α) : (t.runOne s a).2 = t := by
  rw [runOne]
  cases hin : t.redirect none s.input a.input with
  | error t₁ => exact (redirect_error hin).2
  | ok r₁ =>
    have h₁ : t.Over r₁.2 (r₁.1.toList ++ []) := over_redirect (.refl t) hin
    dsimp only
    cases hout : r₁.2.redirect none s.output a.output with
    | error t₂ =>
      rw [(redirect_error hout).2]
      exact h₁.close.eq
    | ok r₂ =>
      have h₂ : t.Over r₂.2 (r₁.1.toList ++ (r₂.1.toList ++ [])) :=
        Table.Over.swap (over_redirect (o := none) h₁ hout)
      have hwhich := which_fds r₂.2 a.asPath a.probes
      dsimp only
      cases hfound : r₂.2.which a.asPath a.probes with
      | mk why t₃ =>
        rw [hfound] at hwhich
        obtain rfl : t₃ = r₂.2 := hwhich
        cases why with
        | found => exact (over_runStage h₂).eq
        | noSuchCommand => exact h₂.close.close.eq
        | notAProgram => exact h₂.close.close.eq
        | noSuchFile => exact h₂.close.close.eq

/-- A pipe is over what there was. -/
theorem over_openPipe {ok : Bool} (ht : t₀.Over t l) (hopen : t.openPipe i more ok = some h) :
    t₀.Over h.fds (l ++ (h.out.toList ++ h.next.toList)) := by
  rw [openPipe] at hopen
  split at hopen
  · split at hopen
    · obtain ⟨q, hpipe, rfl⟩ := Option.map_eq_some_iff.mp hopen
      have hperm : ([q.2.1, q.1] ++ l).Perm (l ++ [q.2.1, q.1]) := List.perm_append_comm
      exact (Table.Over.pipe ht hpipe).perm hperm
    · exact absurd hopen nofun
  · obtain rfl := Option.some.inj hopen
    rwa [Option.toList_none, List.append_nil, List.append_nil]

/-- **What is done for a stage**: it is not started and everything is closed, or it is. -/
theorem prepare_cases (i : ℕ) (more : Bool) (s : Stage) (a : Answers α) (p : Turn α) :
    (∃ t', prepare i more s a p = .error t' ∧ ∀ t₀ : Fds α, t₀.Over p.fds p.carried.toList →
      t' = t₀) ∨
      ∃ h t r, prepare i more s a p = .ok r ∧ p.fds.openPipe i more a.pipe = some h ∧
        h.fds.redirect p.carried s.input a.input = .ok (r.inp, t) ∧
        t.redirect h.out s.output a.output = .ok (r.out, r.fds) ∧ r.next = h.next := by
  rw [prepare]
  cases hopen : p.fds.openPipe i more a.pipe with
  | none =>
    refine .inl ⟨_, rfl, fun t₀ ht => ?_⟩
    rw [← List.append_nil p.carried.toList] at ht
    exact ht.close.eq
  | some h =>
    have h₀ : ∀ t₀ : Fds α, t₀.Over p.fds p.carried.toList →
        t₀.Over h.fds (p.carried.toList ++ (h.out.toList ++ (h.next.toList ++ []))) :=
        fun t₀ ht => by
      rw [List.append_nil]
      exact over_openPipe ht hopen
    dsimp only
    cases hin : h.fds.redirect p.carried s.input a.input with
    | error t₁ =>
      obtain ⟨hnone, rfl⟩ := redirect_error hin
      refine .inl ⟨_, rfl, fun t₀ ht => ?_⟩
      have hover := h₀ t₀ ht
      rw [hnone] at hover
      exact (Table.Over.close (l := h.next.toList ++ []) hover).close.eq
    | ok r₁ =>
      dsimp only
      have h₁ := fun t₀ ht => over_redirect (h₀ t₀ ht) hin
      cases hout : r₁.2.redirect h.out s.output a.output with
      | error t₂ =>
        obtain ⟨hnone, rfl⟩ := redirect_error hout
        refine .inl ⟨_, rfl, fun t₀ ht => ?_⟩
        have hover := (h₁ t₀ ht).close
        rw [hnone] at hover
        exact (Table.Over.close (l := []) hover).eq
      | ok r₂ =>
        dsimp only
        have hwhich := which_fds r₂.2 a.asPath a.probes
        have h₂ : ∀ t₀ : Fds α, t₀.Over p.fds p.carried.toList →
            ((r₂.2.closeAt r₁.1).closeAt r₂.1).closeAt h.next = t₀ := fun t₀ ht =>
          (over_redirect (h₁ t₀ ht).swap hout).swap.close.close.close.eq
        cases hfound : r₂.2.which a.asPath a.probes with
        | mk why t₃ =>
          rw [hfound] at hwhich
          obtain rfl : t₃ = r₂.2 := hwhich
          cases why with
          | found => exact .inr ⟨h, r₁.2, _, rfl, rfl, hin, hout, rfl⟩
          | noSuchCommand => exact .inl ⟨_, rfl, h₂⟩
          | notAProgram => exact .inl ⟨_, rfl, h₂⟩
          | noSuchFile => exact .inl ⟨_, rfl, h₂⟩

theorem prepare_error (ht : t₀.Over p.fds p.carried.toList)
    (hprep : prepare i more s a p = .error t') :
    t' = t₀ := by
  rcases prepare_cases i more s a p with ⟨t₁, herr, hclosed⟩ | ⟨-, -, r, hok, -⟩
  · exact Except.error.inj (herr.symm.trans hprep) ▸ hclosed t₀ ht
  · rw [hok] at hprep
    exact absurd hprep nofun

/-- What a stage has been given, opened step by step. -/
theorem prepare_ok {r : Ready α} (hprep : prepare i more s a p = .ok r) :
    ∃ h t, p.fds.openPipe i more a.pipe = some h ∧ h.fds.redirect p.carried s.input a.input =
    .ok (r.inp, t) ∧
      t.redirect h.out s.output a.output = .ok (r.out, r.fds) ∧ r.next = h.next := by
  rcases prepare_cases i more s a p with ⟨t₁, herr, -⟩ | ⟨h, t, r', hok, hrest⟩
  · rw [herr] at hprep
    exact absurd hprep nofun
  · obtain rfl := Except.ok.inj (hok.symm.trans hprep)
    exact ⟨h, t, hrest⟩

/-- **The stage that is started.** Nothing is open but what it has been given and what is kept for
the next one. -/
theorem over_prepare {r : Ready α} (ht : t₀.Over p.fds p.carried.toList)
    (hprep : prepare i more s a p = .ok r) :
    t₀.Over r.fds (r.inp.toList ++ (r.out.toList ++ r.next.toList)) := by
  obtain ⟨h, t, hopen, hin, hout, hnext⟩ := prepare_ok hprep
  rw [hnext]
  exact (over_redirect (over_redirect (over_openPipe ht hopen) hin).swap hout).swap

/-- **The loop.** -/
theorem pipelineLoop_fds (cs : List (Stage × Answers α)) (ht : t₀.Over p.fds p.carried.toList) :
    (pipelineLoop i cs p).2 = t₀ := by
  induction cs generalizing i p with
  | nil =>
    rw [← List.append_nil p.carried.toList] at ht
    exact ht.close.eq
  | cons c cs ih =>
    rw [pipelineLoop]
    cases hprep : prepare i (!cs.isEmpty) c.1 c.2 p with
    | error t' => exact prepare_error ht hprep
    | ok r => exact ih (over_runStage (over_prepare ht hprep))

theorem runPipeline_fds (t : Fds α) (cs : List (Stage × Answers α)) : (t.runPipeline cs).2 = t := by
  match cs with
  | [] => exact pipelineLoop_fds (i := 0) [] (.refl t)
  | [c] => exact runOne_fds t c.1 c.2
  | c₁ :: c₂ :: cs => exact pipelineLoop_fds (c₁ :: c₂ :: cs) (.refl t)

/-- **The shell has what it had**, however it goes. -/
theorem keeps_fds (t : Fds α) :
    (∀ (s : Stage) (a : Answers α), (t.runOne s a).2 = t) ∧
      ∀ cs : List (Stage × Answers α), (t.runPipeline cs).2 = t :=
  ⟨runOne_fds t, runPipeline_fds t⟩

/-! ## What a child has -/

variable {b c w r' : Fin kMaxFd} {j : ℕ} {v : Bool}

/-- **A stage that writes to a pipe.** The end that is kept for the next stage must be where input
or output go, and what the child reads from must be its own. -/
theorem own_more (hw : t w = some (.pipeEnd i true)) (hr : t r' = some (.pipeEnd i false))
    (hlt : r' < w)
    (how : o ≠ some w) (hor : o ≠ some r')
    (hrest : ∀ k j v, t k = some (.pipeEnd j v) → o = some k ∨ k = w ∨ k = r') :
    Own i ((t.move o 0).move (some w) 1) ↔ (r' = 0 ∨ r' = 1) ∧
      ∀ j v, t.move o 0 0 = some (.pipeEnd j v) → v = false ∧ j + 1 = i := by
  have hw0 : w ≠ 0 := Fin.ne_zero_of_lt hlt
  have hzero : ((t.move o 0).move (some w) 1) 0 = t.move o 0 0 :=
    Table.move_of_ne (by decide) fun h => hw0 (Option.some.inj h)
  have hone : ((t.move o 0).move (some w) 1) 1 = some (.pipeEnd i true) := by
    rw [Table.move_to, Table.move_of_ne hw0 how, hw]
  constructor
  · intro hown
    constructor
    · by_contra hno
      obtain ⟨h0, h1⟩ := not_or.mp hno
      have hkept : ((t.move o 0).move (some w) 1) r' = some (.pipeEnd i false) := by
        rw [Table.move_of_ne h1 fun h => hlt.ne' (Option.some.inj h), Table.move_of_ne h0 hor, hr]
      rcases hown r' i false hkept with ⟨h, -⟩ | ⟨h, -⟩
      · exact h0 h
      · exact h1 h
    · intro j v hj
      rcases hown 0 j v (hzero.trans hj) with ⟨-, h⟩ | ⟨h, -⟩
      · exact h
      · exact absurd h (by decide)
  · rintro ⟨hr01, hin⟩ fd j v hfd
    by_cases h0 : fd = 0
    · subst h0
      exact .inl ⟨rfl, hin j v (hzero.symm.trans hfd)⟩
    · by_cases h1 : fd = 1
      · subst h1
        obtain ⟨rfl, rfl⟩ := File.pipeEnd.inj (Option.some.inj (hone.symm.trans hfd))
        exact .inr ⟨rfl, rfl, rfl⟩
      · obtain ⟨hfd', hnw⟩ := Table.of_move h1 hfd
        obtain ⟨hfd'', hno⟩ := Table.of_move h0 hfd'
        rcases hrest fd j v hfd'' with h | h | h
        · exact absurd h hno
        · exact absurd (congrArg some h.symm) hnw
        · exact (hr01.elim (fun h' => h0 (h.trans h')) fun h' => h1 (h.trans h')).elim

/-- **The last stage** reads from a pipe. What it writes to must not be a copy of that, and must not
be where its input goes. -/
theorem own_last (hc : t c = some (.pipeEnd j false)) (hj : j + 1 = i) (hoc : o ≠ some c)
    (hrest : ∀ k j' v, t k = some (.pipeEnd j' v) → v = false ∧ (k = c ∨ o = some k)) :
    Own i ((t.move (some c) 0).move o 1) ↔ ∀ b, o = some b → b ≠ 0 ∧
    ∀ j' v, t b ≠ some (.pipeEnd j' v) := by
  have hin : t.move (some c) 0 0 = some (.pipeEnd j false) := by rw [Table.move_to, hc]
  constructor
  · rintro hown b rfl
    have hbc : some c ≠ some b := fun h => hoc h.symm
    have hb0 : b ≠ 0 := by
      rintro rfl
      have hone : ((t.move (some c) 0).move (some 0) 1) 1 = some (.pipeEnd j false) := by
        rw [Table.move_to, hin]
      rcases hown 1 j false hone with ⟨h, -⟩ | ⟨-, h, -⟩
      · exact absurd h (by decide)
      · exact absurd h nofun
    refine ⟨hb0, fun j' v hb => ?_⟩
    have hone : ((t.move (some c) 0).move (some b) 1) 1 = some (.pipeEnd j' v) := by
      rw [Table.move_to, Table.move_of_ne hb0 hbc, hb]
    obtain ⟨rfl, -⟩ := hrest b j' v hb
    rcases hown 1 j' false hone with ⟨h, -⟩ | ⟨-, h, -⟩
    · exact absurd h (by decide)
    · exact absurd h nofun
  · intro hout fd j' v hfd
    have ho0 : o ≠ some 0 := fun h => (hout 0 h).1 rfl
    by_cases h0 : fd = 0
    · subst h0
      rw [Table.move_of_ne (by decide) ho0, hin] at hfd
      obtain ⟨rfl, rfl⟩ := File.pipeEnd.inj (Option.some.inj hfd)
      exact .inl ⟨rfl, rfl, hj⟩
    · -- Nothing is a pipe any more.
      exfalso
      have hnone : ∀ k, k ≠ 0 → t.move (some c) 0 k ≠ some (.pipeEnd j' v) := fun k hk h => by
        obtain ⟨hk', hck⟩ := Table.of_move hk h
        rcases (hrest k j' v hk').2 with h | h
        · exact hck (congrArg some h.symm)
        · exact (hout k h).2 j' v hk'
      by_cases h1 : fd = 1
      · subst h1
        cases o with
        | none => exact hnone 1 h0 hfd
        | some b =>
          rw [Table.move_to] at hfd
          exact hnone b (hout b rfl).1 hfd
      · exact hnone fd h0 (Table.of_move h1 hfd).1

theorem own_last_some (hc : t c = some (.pipeEnd j false)) (hj : j + 1 = i) (hbc : b ≠ c)
    (hrest : ∀ k j' v, t k = some (.pipeEnd j' v) → v = false ∧ (k = c ∨ k = b)) :
    Own i ((t.move (some c) 0).move (some b) 1) ↔ b ≠ 0 ∧ ∀ j' v, t b ≠ some (.pipeEnd j' v) := by
  rw [own_last hc hj (fun h => hbc (Option.some.inj h))
    fun k j' v hk => (hrest k j' v hk).imp_right (Or.imp_right fun h => congrArg some h.symm)]
  refine ⟨fun h => h b rfl, fun h b' hb' => ?_⟩
  rw [← Option.some.inj hb']
  exact h

/-- **In front of a stage.** Of the pipes there is only the end that is kept for it. -/
structure Waiting (t₀ : Table kMaxFd α) (i : ℕ) (p : Turn α) : Prop where
  /-- The shell has the table it began with, and what is kept. -/
  opened : (entry t₀).Over p.fds p.carried.toList
  /-- What is kept is the read end of the last pipe. -/
  ends : ∀ fd, p.carried = some fd → ∃ j, j + 1 = i ∧ p.fds fd = some (.pipeEnd j false)
  /-- Where nothing is kept there is no stage in front. -/
  first : p.carried = none → i = 0

variable {t₁ : Table kMaxFd α}

theorem entry_ne (t₁ : Table kMaxFd α) (fd : Fin kMaxFd) : entry t₁ fd ≠ some (.pipeEnd j v) := by
  intro h
  obtain ⟨x, -, hx⟩ := Option.map_eq_some_iff.mp h
  exact absurd hx nofun

theorem waiting_entry (t₁ : Table kMaxFd α) : Waiting t₁ 0 ⟨entry t₁, none⟩ :=
  ⟨.refl _, nofun, fun _ => rfl⟩

theorem Waiting.carried_of_end {fd : Fin kMaxFd} (hwait : Waiting t₁ i p)
    (hfd : p.fds fd = some (.pipeEnd j v)) :
    p.carried = some fd := by
  by_contra hno
  rw [hwait.opened.same fd fun h => hno (Option.mem_toList.mp h)] at hfd
  exact entry_ne t₁ fd hfd

theorem Waiting.end_eq {fd : Fin kMaxFd} (hwait : Waiting t₁ i p)
    (hfd : p.fds fd = some (.pipeEnd j v)) :
    v = false ∧ j + 1 = i := by
  obtain ⟨j', hj', hend⟩ := hwait.ends fd (hwait.carried_of_end hfd)
  obtain ⟨rfl, rfl⟩ := File.pipeEnd.inj (Option.some.inj (hend.symm.trans hfd))
  exact ⟨rfl, hj'⟩

/-- What a stage gets if it has nothing and asks for nothing. -/
theorem inherit_cases (t : Fds α) (o : Option (Fin kMaxFd)) (r : Redir) (fd : Fin kMaxFd) :
    t.inherit o r fd = (o, t) ∧ (o ≠ none ∨ r.kind ≠ 0 ∨ t.lowest = none) ∨
      o = none ∧ r.kind = 0 ∧ ∃ b, t.lowest = some b ∧ t.inherit o r fd = (some b,
        Function.update t b (t fd)) := by
  rw [inherit]
  by_cases hnone : o = none ∧ r.kind = 0
  · rw [if_pos hnone, Table.dup]
    cases hlow : t.lowest with
    | none => exact .inl ⟨by rw [hnone.1]; rfl, .inr (.inr rfl)⟩
    | some b =>
      refine .inr ⟨hnone.1, hnone.2, b, rfl, ?_⟩
      rw [Option.elim_some, Table.dup2]
      by_cases hfd : fd = b
      · rw [if_pos hfd, hfd, Function.update_eq_self]
      · rw [if_neg hfd]
  · rw [if_neg hnone]
    refine .inl ⟨rfl, ?_⟩
    rcases not_and_or.mp hnone with h | h
    · exact .inl h
    · exact .inr (.inl h)

/-- What a stage in front of another one has been given: the pipe behind it, and what it reads
from. -/
structure Piped (i : ℕ) (s : Stage) (p : Turn α) (h : Ready α) (r' w : Fin kMaxFd) : Prop where
  /-- The read end is kept for the next stage, -/
  next : h.next = some r'
  /-- and the write end is for this one. -/
  out : h.out = some w
  /-- Neither descriptor was in use before, -/
  free : p.fds r' = none
  /-- and the one is the lowest, -/
  lowest : ∀ k, p.fds k = none → r' ≤ k
  /-- in front of the other. -/
  lt : r' < w
  /-- It reads from the new pipe, -/
  read : h.fds r' = some (.pipeEnd i false)
  /-- the other one writes to it. -/
  write : h.fds w = some (.pipeEnd i true)
  /-- Neither is what the stage reads from, -/
  inp_read : h.inp ≠ some r'
  /-- which was there before. -/
  inp_write : h.inp ≠ some w
  /-- It has input if there was a pipe or a redirection. -/
  inp_iff : h.inp ≠ none ↔ p.carried ≠ none ∨ s.input.kind ≠ 0
  /-- There is no other end of a pipe. -/
  ends : ∀ k j v, h.fds k = some (.pipeEnd j v) → (h.inp = some k ∧ v = false ∧ j + 1 = i) ∨
    k = w ∨ k = r'

theorem piped_of_prepare (hwait : Waiting t₁ i p) (hprep : prepare i true s a p = .ok h) :
    ∃ r' w, Piped i s p h r' w := by
  obtain ⟨h₀, t, hopen, hin, hout, hnext⟩ := prepare_ok hprep
  rw [openPipe, if_pos rfl] at hopen
  split at hopen
  · obtain ⟨⟨r', w, t'⟩, hpipe, rfl⟩ := Option.map_eq_some_iff.mp hopen
    obtain ⟨hr, hw, hlt, hlow, rfl⟩ := Table.pipe_eq_some hpipe
    dsimp only at hin hout hnext
    obtain ⟨hout', hfds⟩ : h.out = some w ∧ h.fds = t := by
      rcases redirect_ok hout with ⟨h₁, h₂, -⟩ | ⟨h₁, -⟩
      · exact ⟨h₁, h₂⟩
      · exact absurd h₁ nofun
    set t₂ : Fds α :=
      Function.update (Function.update p.fds r' (some (.pipeEnd i false))) w
        (some (.pipeEnd i true)) with ht₂
    have hread : t₂ r' = some (.pipeEnd i false) := by
      rw [ht₂, Function.update_of_ne hlt.ne, Function.update_self]
    have hwrite : t₂ w = some (.pipeEnd i true) := Function.update_self ..
    have hends : ∀ k j v, t₂ k = some (.pipeEnd j v) →
        (p.carried = some k ∧ v = false ∧ j + 1 = i) ∨ k = w ∨ k = r' := by
      intro k j v hk
      by_cases hkw : k = w
      · exact .inr (.inl hkw)
      · by_cases hkr : k = r'
        · exact .inr (.inr hkr)
        · rw [ht₂, Function.update_of_ne hkw, Function.update_of_ne hkr] at hk
          exact .inl ⟨hwait.carried_of_end hk, hwait.end_eq hk⟩
    have hopened : ∀ k, p.fds k = none → p.carried ≠ some k := fun k hk hc => by
      obtain ⟨j, -, hend⟩ := hwait.ends k hc
      rw [hk] at hend
      exact absurd hend nofun
    rcases redirect_ok hin with ⟨hinp, rfl, hgiven⟩ | ⟨hc, hkind, fd, y, hinp, hfree, rfl⟩
    · refine ⟨r', w, hnext, hout', hr, hlow, hlt, hfds ▸ hread, hfds ▸ hwrite, hinp ▸ hopened r' hr,
        hinp ▸ hopened w hw, ?_, ?_⟩
      · rw [hinp]
        exact ⟨.inl, fun h => h.elim id fun hk => hgiven.resolve_right hk⟩
      · rw [hinp, hfds]
        exact hends
    · have hfd := Table.free_of_lowest hfree
      have hne : ∀ {k x}, t₂ k = some x → k ≠ fd := by
        rintro k x hk rfl
        rw [hfd] at hk
        exact absurd hk nofun
      have hset : ∀ {k}, k ≠ fd → h.fds k = t₂ k := fun hk => by rw [hfds, Function.update_of_ne hk]
      have hinpne : ∀ {k x}, t₂ k = some x → h.inp ≠ some k := fun hk h' =>
        hne hk (Option.some.inj (hinp.symm.trans h')).symm
      refine ⟨r', w, hnext, hout', hr, hlow, hlt, (hset (hne hread)).trans hread,
        (hset (hne hwrite)).trans hwrite,
        hinpne hread, hinpne hwrite, ?_, fun k j v hk => ?_⟩
      · rw [hinp]
        exact ⟨fun _ => .inr hkind, fun _ => nofun⟩
      · by_cases hkfd : k = fd
        · rw [hfds, hkfd, Function.update_self] at hk
          exact absurd (Option.some.inj hk) nofun
        · rw [hset hkfd] at hk
          refine (hends k j v hk).imp_left fun h' => ?_
          rw [hc] at h'
          exact absurd h'.1 nofun
  · exact absurd hopen nofun

/-- A descriptor that is open is not taken for the copy. -/
theorem inherit_of_ne (fd : Fin kMaxFd) {k : Fin kMaxFd} {f : File α} (ho : o ≠ some k)
    (hk : t k = some f) :
    (t.inherit o r fd).2 k = some f ∧ (t.inherit o r fd).1 ≠ some k := by
  rcases inherit_cases t o r fd with ⟨hinh, -⟩ | ⟨-, -, b, hb, hinh⟩
  · rw [hinh]
    exact ⟨hk, ho⟩
  · have hkb : k ≠ b := by
      rintro rfl
      exact absurd (hk.symm.trans (Table.free_of_lowest hb)) nofun
    rw [hinh]
    exact ⟨(Function.update_of_ne hkb _ _).trans hk, fun h => hkb (Option.some.inj h).symm⟩

theorem inherit_of_some (fd : Fin kMaxFd) (ho : o ≠ none) : t.inherit o r fd = (o, t) := by
  rw [inherit, if_neg fun hnone => ho hnone.1]

/-- What is at `0` when the input has been moved there: what was given, and otherwise what the shell
has there. -/
theorem own_input (hp : Piped i s p h r' w) :
    (∀ j v, ((h.fds.inherit h.inp s.input 0).2.move (h.fds.inherit h.inp s.input 0).1 0) 0 =
      some (.pipeEnd j v) →
      v = false ∧ j + 1 = i) ↔ (h.inp ≠ none ∨ r' ≠ 0) := by
  have hw0 : w ≠ 0 := Fin.ne_zero_of_lt hp.lt
  -- Without an input of its own a child has at `0` what the shell has there.
  have hshell : h.inp = none → ((∀ j v, h.fds 0 = some (.pipeEnd j v) → v = false ∧ j + 1 = i) ↔
      r' ≠ 0) := by
    intro hnone
    constructor
    · rintro hown rfl
      have := (hown i false hp.read).2
      omega
    · intro hr0 j v hj
      rcases hp.ends 0 j v hj with ⟨h', -⟩ | h' | h'
      · rw [hnone] at h'
        exact absurd h' nofun
      · exact absurd h'.symm hw0
      · exact absurd h'.symm hr0
  rcases inherit_cases h.fds h.inp s.input 0 with ⟨hinh, -⟩ | ⟨hnone, -, b, -, hinh⟩
  · rw [hinh]
    cases hinp : h.inp with
    | none =>
      rw [Table.move_none, hshell hinp]
      simp
    | some fd =>
      rw [Table.move_to]
      refine iff_of_true (fun j v hj => ?_) (.inl nofun)
      rcases hp.ends fd j v hj with ⟨-, h'⟩ | h' | h'
      · exact h'
      · exact absurd (h' ▸ hinp) hp.inp_write
      · exact absurd (h' ▸ hinp) hp.inp_read
  · rw [hinh]
    dsimp only
    rw [Table.move_to, Function.update_self, hshell hnone, hnone]
    simp

/-- **A stage in front of another one.** -/
theorem ownEnds_of_piped (hp : Piped i s p h r' w) :
    Own i (h.fds.runStage s h.inp h.out).1 ↔
      (if p.fds 0 = none then p.carried ≠ none ∨ s.input.kind ≠ 0 else p.fds 1 = none) := by
  have hsome : (some w : Option (Fin kMaxFd)) ≠ none := nofun
  rw [runStage, hp.out, inherit_of_some 1 hsome]
  dsimp only
  have hown := own_input hp
  obtain ⟨hw, how⟩ := inherit_of_ne (r := s.input) 0 hp.inp_write hp.write
  obtain ⟨hr, hor⟩ := inherit_of_ne (r := s.input) 0 hp.inp_read hp.read
  have hrest : ∀ k j v, (h.fds.inherit h.inp s.input 0).2 k = some (.pipeEnd j v) →
      (h.fds.inherit h.inp s.input 0).1 = some k ∨ k = w ∨ k = r' := by
    rcases inherit_cases h.fds h.inp s.input 0 with ⟨hinh, -⟩ | ⟨hnone, -, b, -, hinh⟩
    · rw [hinh]
      exact fun k j v hk => (hp.ends k j v hk).imp_left And.left
    · rw [hinh]
      intro k j v hk
      dsimp only at hk
      by_cases hkb : k = b
      · exact .inl (congrArg some hkb.symm)
      · rw [Function.update_of_ne hkb] at hk
        refine .inr ((hp.ends k j v hk).resolve_left fun h' => ?_)
        rw [hnone] at h'
        exact absurd h'.1 nofun
  rw [own_more hw hr hp.lt how hor hrest, hown, hp.inp_iff]
  by_cases h0 : p.fds 0 = none
  · obtain rfl : r' = 0 := nonpos_iff_eq_zero.mp (hp.lowest 0 h0)
    rw [if_pos h0]
    simp
  · have hr0 : r' ≠ 0 := fun h' => h0 (h' ▸ hp.free)
    rw [if_neg h0]
    constructor
    · rintro ⟨h', -⟩
      exact h'.resolve_left hr0 ▸ hp.free
    · intro h1
      refine ⟨.inr ?_, .inr hr0⟩
      have hle : r'.val ≤ 1 := hp.lowest 1 h1
      have hpos : 0 < r'.val := Fin.pos_iff_ne_zero.mpr hr0
      exact Fin.ext (Nat.le_antisymm hle hpos)

/-- **The last stage.** -/
theorem ownEnds_of_last (hwait : Waiting t₁ i p) (hi : i ≠ 0)
    (hprep : prepare i false s a p = .ok h) :
    Own i (h.fds.runStage s h.inp h.out).1 ↔
      p.fds 0 ≠ none ∧ (s.output.kind ≠ 0 ∨ p.fds.lowest = none ∨ p.carried ≠ some 1) := by
  obtain ⟨h₀, t, hopen, hin, hout, -⟩ := prepare_ok hprep
  rw [openPipe, if_neg nofun] at hopen
  obtain rfl := Option.some.inj hopen
  cases hc : p.carried with
  | none => exact absurd (hwait.first hc) hi
  | some c =>
    obtain ⟨j, hj, hend⟩ := hwait.ends c hc
    have hcsome : (some c : Option (Fin kMaxFd)) ≠ none := nofun
    obtain ⟨hinp, rfl⟩ : h.inp = some c ∧ t = p.fds := by
      rcases redirect_ok hin with ⟨h₁, h₂, -⟩ | ⟨h₁, -⟩
      · exact ⟨h₁.trans hc, h₂⟩
      · exact absurd (hc.symm.trans h₁) nofun
    have hpipes : ∀ k j v, p.fds k = some (.pipeEnd j v) → v = false ∧ k = c := fun k j v hk =>
      ⟨(hwait.end_eq hk).1, Option.some.inj ((hwait.carried_of_end hk).symm.trans hc)⟩
    have hopened : ∀ {b}, p.fds.lowest = some b → b ≠ c := fun hb h' => by
      rw [← h', Table.free_of_lowest hb] at hend
      exact absurd hend nofun
    have hzero : ∀ {b}, p.fds.lowest = some b → (b ≠ 0 ↔ p.fds 0 ≠ none) := fun hb => by
      rw [Ne, Ne, ← Table.lowest_eq_zero, hb, Option.some.injEq]
    rw [runStage, hinp, inherit_of_some 0 hcsome]
    dsimp only
    rcases redirect_ok hout with ⟨hout', hfds, hkind⟩ | ⟨-, hkind, b, y, hout', hlow, hfds⟩
    · have hk0 : s.output.kind = 0 := hkind.resolve_left fun h' => h' rfl
      rw [hfds, hout']
      rcases inherit_cases p.fds none s.output 1 with ⟨hinh, hwhy⟩ | ⟨-, -, b, hlow, hinh⟩
      · have hnone : p.fds.lowest = none :=
          (hwhy.resolve_left fun h' => h' rfl).resolve_left fun h' => h' hk0
        have hown := own_last (o := none) hend hj (fun h' => hcsome h'.symm)
          fun k j' v hk => ⟨(hpipes k j' v hk).1, .inl (hpipes k j' v hk).2⟩
        rw [hinh]
        dsimp only
        rw [hown]
        exact iff_of_true (fun b h' => absurd h' nofun) ⟨Table.lowest_eq_none.mp hnone 0,
          .inr (.inl hnone)⟩
      · -- What is copied for the output is the end of the pipe if that is where the shell should
        -- have its own.
        have hb := hopened hlow
        have hcb : Function.update p.fds b (p.fds 1) c = some (.pipeEnd j false) := by
          rw [Function.update_of_ne hb.symm, hend]
        have hrest : ∀ k j' v, Function.update p.fds b (p.fds 1) k = some (.pipeEnd j' v) →
            v = false ∧ (k = c ∨ k = b) := fun k j' v hk => by
          by_cases hkb : k = b
          · rw [hkb, Function.update_self] at hk
            exact ⟨(hpipes 1 j' v hk).1, .inr hkb⟩
          · rw [Function.update_of_ne hkb] at hk
            exact ⟨(hpipes k j' v hk).1, .inl (hpipes k j' v hk).2⟩
        rw [hinh]
        dsimp only
        rw [own_last_some hcb hj hb hrest, hzero hlow, Function.update_self]
        refine and_congr_right fun _ => ⟨fun h' => .inr (.inr fun h1 => ?_), fun h' j' v h1 => ?_⟩
        · exact h' j false (Option.some.inj h1 ▸ hend)
        · rcases h' with h' | h' | h'
          · exact h' hk0
          · exact absurd (hlow.symm.trans h') nofun
          · exact h' (congrArg some (hpipes 1 j' v h1).2.symm)
    · -- A file that has been opened is no pipe.
      have hb := hopened hlow
      have hcb : h.fds c = some (.pipeEnd j false) := by
        rw [hfds, Function.update_of_ne hb.symm, hend]
      have hbsome : (some b : Option (Fin kMaxFd)) ≠ none := nofun
      have hfile : ∀ j' v, h.fds b ≠ some (.pipeEnd j' v) := fun j' v hk => by
        rw [hfds, Function.update_self] at hk
        exact absurd (Option.some.inj hk) nofun
      have hrest : ∀ k j' v, h.fds k = some (.pipeEnd j' v) → v = false ∧ (k = c ∨ k = b) :=
        fun k j' v hk => by
        have hkb : k ≠ b := fun h' => hfile j' v (h' ▸ hk)
        rw [hfds, Function.update_of_ne hkb] at hk
        exact ⟨(hpipes k j' v hk).1, .inl (hpipes k j' v hk).2⟩
      rw [hout', inherit_of_some 1 hbsome]
      dsimp only
      rw [own_last_some hcb hj hb hrest, hzero hlow]
      exact and_congr_right fun _ => iff_of_true hfile (.inl hkind)

/-- What a stage has not been given stays open. -/
theorem runStage_of_ne {k : Fin kMaxFd} {f : File α} (hin : inp ≠ some k) (hout : out ≠ some k)
    (hk : t k = some f) : (t.runStage s inp out).2 k = some f := by
  obtain ⟨hk₁, hin₁⟩ := inherit_of_ne (r := s.input) 0 hin hk
  obtain ⟨hk₂, hout₁⟩ := inherit_of_ne (r := s.output) 1 hout hk₁
  show ((Table.closeAt _ _).closeAt _) k = _
  rw [Table.closeAt_of_ne hout₁, Table.closeAt_of_ne hin₁]
  exact hk₂

/-- **From one stage to the next.** -/
theorem waiting_turn (hwait : Waiting t₁ i p) (hprep : prepare i true s a p = .ok h) :
    Waiting t₁ (i + 1) ⟨(h.fds.runStage s h.inp h.out).2, h.next⟩ := by
  obtain ⟨r', w, hp⟩ := piped_of_prepare hwait hprep
  refine ⟨over_runStage (over_prepare hwait.opened hprep), fun fd hfd => ?_, fun hnone => ?_⟩
  · obtain rfl := Option.some.inj (hp.next.symm.trans hfd)
    have hout : h.out ≠ some r' := fun h' => hp.lt.ne' (Option.some.inj (hp.out.symm.trans h'))
    exact ⟨i, rfl, runStage_of_ne hp.inp_read hout hp.read⟩
  · exact absurd (hp.next.symm.trans hnone) nofun

/-- **All stages.** -/
theorem ownEnds_iff (cs : List (Stage × Answers α)) (hwait : Waiting t₁ i p)
    (hlen : i = 0 → 2 ≤ cs.length) :
    ∀ l ∈ (pipelineLoop i cs p).1, (l.OwnEnds ↔ l.Spared) := by
  induction cs generalizing i p with
  | nil => exact nofun
  | cons c cs ih =>
    intro l hl
    rw [pipelineLoop] at hl
    cases hprep : prepare i (!cs.isEmpty) c.1 c.2 p with
    | error t' =>
      rw [hprep] at hl
      exact absurd hl List.not_mem_nil
    | ok h =>
      rw [hprep] at hl
      rcases List.mem_cons.mp hl with rfl | hl
      · cases cs with
        | nil =>
          have hi : i ≠ 0 := fun h0 => absurd (hlen h0) (by simp)
          exact ownEnds_of_last hwait hi hprep
        | cons c' cs =>
          obtain ⟨r', w, hp⟩ := piped_of_prepare hwait hprep
          exact ownEnds_of_piped hp
      · cases cs with
        | nil => exact absurd hl List.not_mem_nil
        | cons c' cs => exact ih (waiting_turn hwait hprep) nofun l hl

theorem readers_eq_zero {ts : List (Fds α)} :
    readers i ts = 0 ↔ ∀ t ∈ ts, ∀ fd, t fd ≠ some (.pipeEnd i false) := by
  have hreader : ∀ f : Option (File α), ¬ isReader i f = true ↔ f ≠ some (.pipeEnd i false) := by
    intro f
    match f with
    | none => exact iff_of_true nofun nofun
    | some (.other _) => exact iff_of_true nofun nofun
    | some (.pipeEnd j true) => exact iff_of_true nofun nofun
    | some (.pipeEnd j false) => simp [isReader]
  rw [readers, List.sum_eq_zero_iff, List.forall_mem_map]
  refine forall₂_congr fun t _ => ?_
  rw [List.countP_eq_zero]
  simp only [hreader, List.mem_finRange, true_implies]

/-- If no child has more than its own, a pipe has no reader when the stage that reads from it is
gone. -/
theorem unread_of_ownEnds {ls : List (Launch α)} (h : ∀ l ∈ ls, l.OwnEnds) :
    Unread ls (entry t₁) := by
  intro i
  rw [readers_eq_zero]
  intro t ht fd hfd
  rcases List.mem_cons.mp ht with rfl | ht
  · exact entry_ne t₁ fd hfd
  · obtain ⟨l, hl, rfl⟩ := List.mem_map.mp ht
    obtain ⟨hl, hne⟩ := List.mem_filter.mp hl
    rcases h l hl fd i false hfd with ⟨-, -, hi⟩ | ⟨-, h', -⟩
    · exact of_decide_eq_true hne hi.symm
    · exact absurd h' nofun

/-- **The stages of a pipeline have their own ends only, and a writer is not left waiting**, if and
only if no end that is kept back stays where the child does not put anything. -/
theorem ownEnds_iff_spared (t : Table kMaxFd α) (c₁ c₂ : Stage × Answers α)
    (cs : List (Stage × Answers α)) :
    ((∀ l ∈ ((entry t).runPipeline (c₁ :: c₂ :: cs)).1, l.OwnEnds) ∧
      Unread ((entry t).runPipeline (c₁ :: c₂ :: cs)).1 ((entry t).runPipeline
        (c₁ :: c₂ :: cs)).2) ↔
        ∀ l ∈ ((entry t).runPipeline (c₁ :: c₂ :: cs)).1, l.Spared := by
  have hlen : (0 : ℕ) = 0 → 2 ≤ (c₁ :: c₂ :: cs).length := fun _ => Nat.le_add_left 2 cs.length
  have hstages := ownEnds_iff (c₁ :: c₂ :: cs) (waiting_entry t) hlen
  rw [runPipeline_fds]
  constructor
  · exact fun h l hl => (hstages l hl).mp (h.1 l hl)
  · intro h
    have hown : ∀ l ∈ ((entry t).runPipeline (c₁ :: c₂ :: cs)).1, l.OwnEnds :=
      fun l hl => (hstages l hl).mpr (h l hl)
    exact ⟨hown, unread_of_ownEnds hown⟩

/-- **A shell that has an input and an output** gives too much to the first stage, if it starts
it. -/
theorem no_launch_of_ownEnds (t : Table kMaxFd α) (h0 : t 0 ≠ none) (h1 : t 1 ≠ none)
    (c₁ c₂ : Stage × Answers α)
    (cs : List (Stage × Answers α)) :
    (∀ l ∈ ((entry t).runPipeline (c₁ :: c₂ :: cs)).1, l.OwnEnds) ↔
      ((entry t).runPipeline (c₁ :: c₂ :: cs)).1 = [] := by
  constructor
  · intro h
    show (pipelineLoop 0 (c₁ :: c₂ :: cs) ⟨entry t, none⟩).1 = []
    have hfirst : ∀ l ∈ (pipelineLoop 0 (c₁ :: c₂ :: cs) ⟨entry t, none⟩).1, l.OwnEnds := h
    rw [pipelineLoop] at hfirst ⊢
    cases hprep : prepare 0 (!(c₂ :: cs).isEmpty) c₁.1 c₁.2 ⟨entry t, none⟩ with
    | error t' => rfl
    | ok r =>
      rw [hprep] at hfirst
      obtain ⟨r', w, hp⟩ := piped_of_prepare (waiting_entry t) hprep
      have hown := (ownEnds_of_piped hp).mp (hfirst _ List.mem_cons_self)
      have hopen : ∀ fd, t fd ≠ none → entry t fd ≠ none :=
        fun fd hfd h' => hfd (Option.map_eq_none_iff.mp h')
      rw [if_neg (hopen 0 h0)] at hown
      exact absurd hown (hopen 1 h1)
  · intro h
    rw [h]
    exact nofun

/-- A shell with three descriptors and a pipeline of two stages. -/
theorem not_ownEnds_two :
    ¬ ∀ l ∈ ((entry fun fd => if fd < 3 then some () else none).runPipeline
      [(Stage.empty, ⟨true, none, none, false, [some ((), false)]⟩),
        (Stage.empty, ⟨true, none, none, false, [some ((), false)]⟩)]).1, l.OwnEnds := by
  intro h
  have hread : ((entry fun fd => if fd < 3 then some () else none).runPipeline
      [(Stage.empty, ⟨true, none, none, false, [some ((), false)]⟩),
        (Stage.empty, ⟨true, none, none, false, [some ((), false)]⟩)]).1.head?.map
        (fun l => l.child 3)
          = some (some (.pipeEnd 0 false)) := by decide +kernel
  obtain ⟨l, hl, hfd⟩ := Option.map_eq_some_iff.mp hread
  rcases h l (List.mem_of_head? hl) 3 0 false hfd with ⟨h3, -⟩ | ⟨h3, -⟩
  · exact absurd h3 (by decide)
  · exact absurd h3 (by decide)

/-! ## The calls of the kernel

What they do to the descriptors of the process that runs is what is said here of a table. -/

section Calls

open Kernel

variable {H : Type} {k : Kernel H}

/-- The descriptors of the process that runs. -/
def table (k : Kernel H) : Table kMaxFd OFile := (k.tasks k.current).fd

theorem table_closeIn (k : Kernel H) (fd : Fin kMaxFd) :
    table (k.closeIn k.current fd) = (table k).close fd := by
  funext fd'
  rw [table, (wakes_closeIn k k.current fd).current, closeIn_fd, Table.close, Function.update_apply]
  simp only [true_and]
  rfl

theorem table_closeFd (k : Kernel H) (fd : Fin kMaxFd) :
    table (k.closeFd fd) = (table k).close fd := by
  rw [closeFd, fdOf_eq_some.mpr rfl]
  exact table_closeIn k fd

theorem table_setFile (k : Kernel H) (fd : Fin kMaxFd) (f : Option OFile) :
    table (k.setFile k.current fd f) = Function.update (table k) fd f := by
  show ((k.setFile k.current fd f).tasks k.current).fd = _
  rw [setFile_fd, if_pos rfl]
  rfl

theorem table_putFd (k : Kernel H) (fd : Fin kMaxFd) (f : Option OFile) :
    table (k.putFd k.current fd f) = Function.update (table k) fd f := table_setFile k fd f

theorem table_dup2 (k : Kernel H) (old nw : Fin kMaxFd) :
    table (k.dup2 old nw).2 = (table k).dup2 old nw := by
  rw [Kernel.dup2, fdOf_eq_some.mpr rfl, fdOf_eq_some.mpr rfl, Table.dup2]
  dsimp only
  by_cases hne : old = nw
  · rw [if_pos hne, if_pos hne]
  · rw [if_neg hne, if_neg hne]
    split
    · rw [table_putFd, table_closeIn]
      have hcur := (wakes_closeIn k k.current nw).current
      have hold : ((k.closeIn k.current nw).tasks (k.closeIn k.current nw).current).fd old =
          table k old := by
        show table (k.closeIn k.current nw) old = _
        rw [table_closeIn, Table.close, Function.update_of_ne hne]
      rw [hold, Table.close, Function.update_idem]
    · rw [table_putFd]
      rfl

theorem table_dup (k : Kernel H) (fd : Fin kMaxFd) :
    ((k.dup fd).1, table (k.dup fd).2) = (table k).dup fd := by
  have hlow : k.nextFree = (table k).lowest := rfl
  rw [Kernel.dup, hlow, Table.dup]
  cases (table k).lowest with
  | none =>
    rw [Option.elim_none, Option.elim_none, Kernel.dup2, fdOf_eq_some.mpr rfl]
    rfl
  | some j =>
    rw [Option.elim_some, Option.elim_some, table_dup2, Kernel.dup2, fdOf_eq_some.mpr rfl,
      fdOf_eq_some.mpr rfl]
    dsimp only
    split
    · rfl
    · rfl

theorem table_pipe {j : Fin kMaxPipe} (hp : k.freePipe = some j) :
    (k.pipe.1.map fun e => (e.1, e.2, table k.pipe.2)) =
      (table k).pipe (pipeFile (pipeAddr j) false) (pipeFile (pipeAddr j) true) := by
  rw [Kernel.pipe, hp, Table.pipe]
  dsimp only
  set k₁ := k.setPipes (Function.update k.pipes (pipeAddr j) ⟨1, 1, none, none, true⟩)
  have hfree : freeFds (k₁.tasks k₁.current) = (table k).free := rfl
  rw [hfree]
  cases (table k).free with
  | nil => rfl
  | cons r l =>
    cases l with
    | nil => rfl
    | cons w l =>
      dsimp only
      rw [Option.map_some]
      exact congrArg (fun t => some (r, w, t))
        ((table_setFile _ w _).trans (congrArg (Function.update · w _) (table_setFile k₁ r _)))

end Calls

end Fds

end Sh

end Aurisys
