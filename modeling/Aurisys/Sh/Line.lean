import Aurisys.Sh.Text

/-!
# Lists of jobs

`run_line` decides by the status of the last job whether the next one is run. A job that is not run
is read all the same, and `run_job` returns 0 for it. So the status of the job in front of it is
lost: behind a job that `&&` has passed over, `&&` runs the next one and `||` does not.

All of this is about lists whose jobs are read one by one. What is more than a job can be is skipped
up to the next character that looks like an operator, wherever that stands: `run_job` goes past the
`||` behind a pipeline of five stages, and it stops at a `;` in the quotes of a ninth word.

## Main definitions

* `chain` — the text of a list of jobs
* `evaluate` — the jobs that should be run
* `ReadTo`, `AllRead` — each job is read up to the operator behind it, and the shell is still there
  behind it
* `Careful` — no job that `&&` passes over has another such operator behind it

## Main results

* `lineLoop_iff`, `runLine_iff` — when the right jobs are run
* `allRead_of_fits` — jobs that are not larger than a job can be are read
-/

namespace Aurisys

namespace Sh

variable {o : World} {k : ℕ} {p rest u u' : Str} {mem : Mem} {status : ℤ} {go : Bool} {job : Job}

/-- What is between two jobs. -/
inductive Joint
  | next
  | both
  | either
  deriving DecidableEq

def Joint.text : Joint → Str
  | .next => [semicolon]
  | .both => [amp, amp]
  | .either => [pipeSign, pipeSign]

/-- Whether the job behind it is run. -/
def Joint.runs : Joint → ℤ → Bool
  | .next, _ => true
  | .both, status => status = 0
  | .either, status => status ≠ 0

/-- The rest of a list of jobs, with the operator in front of each. -/
abbrev Tail := List (Joint × Str)

def tailText : Tail → Str
  | [] => []
  | (j, u) :: items => j.text ++ (u ++ tailText items)

/-- A list of jobs. -/
def chain (u : Str) (items : Tail) : Str := u ++ tailText items

variable {items : Tail} {j : Joint}

/-- What becomes of the shell behind a job. One that is not run leaves the status as it is. -/
def outcome (o : World) (place : Str) (job : Job) (go : Bool) (status : ℤ) : Outcome :=
  if go then (execute o place job).1 else .status status

/-- **The jobs that should be run**, from the left to the right, by the places where they begin. The
status of a job that is run is what it returns. Nothing is behind a job that has ended the shell. -/
def evaluate (o : World) : Tail → Str → Bool → ℤ → Mem → List Str
  | items, u, go, status, mem =>
    match parseJob o 0 (chain u items) mem with
    | .error _ => []
    | .ok job =>
      (if go then [chain u items] else []) ++
        match outcome o (chain u items) job go status, items with
        | .status status, (j, u) :: items => evaluate o items u (j.runs status) status job.mem
        | _, _ => []

/-- **A job is read** up to what is behind it, and it has a stage. -/
def ReadTo (o : World) (u rest : Str) (mem : Mem) : Prop :=
  ∃ t, stageLoop o 0 (kMaxStage + 1) ⟨u ++ rest, [], mem⟩ = .ok t ∧ t.p = rest ∧ t.stages ≠ []

/-- **Each job is read** up to the operator behind it, one after the other, as long as the shell is
there to do so. It does not go the way of a child in front of another job. -/
def AllRead (o : World) : Tail → Str → Bool → ℤ → Mem → Prop
  | items, u, go, status, mem =>
    ReadTo o u (tailText items) mem ∧
      match parseJob o 0 (chain u items) mem with
      | .error _ => True
      | .ok job =>
        match outcome o (chain u items) job go status, items with
        | .status status, (j, u) :: items => AllRead o items u (j.runs status) status job.mem
        | .replaced, _ :: _ => False
        | _, _ => True

/-- What is behind a job that `&&` has passed over, if there is something, is a semicolon. -/
def Careful (o : World) : Tail → Str → Bool → ℤ → Mem → Prop
  | items, u, go, status, mem =>
    match parseJob o 0 (chain u items) mem with
    | .error _ => True
    | .ok job =>
      match outcome o (chain u items) job go status, items with
      | .status status, (j, u) :: items =>
        (go = false → status ≠ 0 → j = .next) ∧ Careful o items u (j.runs status) status job.mem
      | _, _ => True

/-- The jobs that are run are those that begin at these places. -/
def Runs (r : Except Str (List Ran)) (places : List Str) : Prop :=
  ∃ ran, r = .ok ran ∧ ran.map Ran.place = places

/-- **`run_line` runs the right jobs.** -/
def RunsRight (o : World) (u : Str) (items : Tail) (mem : Mem) : Prop :=
  Runs (runLine o (chain u items) mem) (evaluate o items u true 0 mem)

/-! ## What is behind a job -/

/-- What a job ends with. -/
inductive JobEnd : Str → Prop
  | nil : JobEnd []
  | joint (j : Joint) (rest : Str) : JobEnd (j.text ++ rest)

theorem JobEnd.jobStop (h : JobEnd rest) : JobStop rest := by
  cases h with
  | nil => exact ⟨fun c hc => absurd hc (by simp), fun h => absurd h.1 (by simp)⟩
  | joint j rest =>
    cases j with
    | next =>
      exact ⟨fun c hc => Or.inr (Or.inl (Option.some.inj hc).symm),
        fun h => absurd (Option.some.inj h.1) (by decide)⟩
    | both =>
      exact ⟨fun c hc => Or.inr (Or.inr (Option.some.inj hc).symm),
        fun h => absurd (Option.some.inj h.1) (by decide)⟩
    | either => exact ⟨fun c hc => Or.inl (Option.some.inj hc).symm, fun h => h.2 rfl⟩

/-- The operator that `read_op` reads. -/
def Joint.op : Joint → UInt8
  | .next => semicolon
  | .both => amp
  | .either => pipeSign

theorem readOp_joint (j : Joint) (rest : Str) : readOp (j.text ++ rest) = (j.op, rest) := by
  cases j with
  | next =>
    rw [readOp, show Joint.text .next ++ rest = semicolon :: rest from rfl,
      skipBlanks_of_head (by decide)]
    rfl
  | both =>
    rw [readOp, show Joint.text .both ++ rest = amp :: amp :: rest from rfl,
      skipBlanks_of_head (by decide)]
    rfl
  | either =>
    rw [readOp, show Joint.text .either ++ rest = pipeSign :: pipeSign :: rest from rfl,
      skipBlanks_of_head (by decide)]
    rfl

/-- None of the operators is the one for the background. -/
theorem JobEnd.not_background (h : JobEnd rest) :
    ¬(rest.head? = some amp ∧ rest.tail.head? ≠ some amp) := by
  cases h with
  | nil => exact fun h => absurd h.1 (by simp)
  | joint j rest =>
    cases j with
    | next => exact fun h => absurd h.1 (by simp [Joint.text, semicolon, amp])
    | both => exact fun h => h.2 rfl
    | either => exact fun h => absurd h.1 (by simp [Joint.text, pipeSign, amp])

theorem jobEnd_tailText (items : Tail) : JobEnd (tailText items) := by
  cases items with
  | nil => exact .nil
  | cons item items => exact .joint item.1 _

theorem length_tailText_cons (j : Joint) (u : Str) (items : Tail) :
    (chain u items).length < (tailText ((j, u) :: items)).length := by
  have hpos : 0 < j.text.length := by cases j <;> decide
  rw [tailText, ← chain, List.length_append]
  omega

/-- A job has a text. -/
theorem ReadTo.ne_nil (h : ReadTo o u [] mem) : u ≠ [] := by
  rintro rfl
  obtain ⟨t, hloop, -, hstages⟩ := h
  have hnone : stageLoop o 0 (kMaxStage + 1) ⟨[], [], mem⟩ = .ok ⟨[], [], mem⟩ := rfl
  obtain rfl := Except.ok.inj (hnone.symm.trans hloop)
  exact hstages rfl

/-- **A job in a list** is read, and the operator with it. -/
theorem ReadTo.parseJob (h : ReadTo o u (tailText items) mem) :
    ∃ job, parseJob o 0 (chain u items) mem = .ok job ∧ job.stages ≠ [] ∧
      match items with
      | [] => job.op = 0
      | (j, u') :: items => job.op = j.op ∧ job.rest = chain u' items := by
  obtain ⟨t, hloop, hp, hstages⟩ := h
  have hback := (jobEnd_tailText items).not_background
  rw [← hp] at hback
  refine ⟨⟨(readOp t.p).2, (readOp t.p).1, t.stages, false, t.mem⟩, ?_, hstages, ?_⟩
  · rw [Sh.parseJob, chain, hloop]
    simp only [decide_eq_false hback]
    rfl
  · cases items with
    | nil =>
      dsimp only
      rw [hp]
      rfl
    | cons item items =>
      dsimp only
      rw [hp, tailText, readOp_joint]
      exact ⟨rfl, rfl⟩

/-! ## What is run -/

/-- The jobs that should be run behind one. -/
def behind (o : World) (items : Tail) (mem : Mem) : Outcome → List Str
  | .status status =>
    match items with
    | [] => []
    | (j, u) :: items => evaluate o items u (j.runs status) status mem
  | _ => []

theorem evaluate_eq (hjob : parseJob o 0 (chain u items) mem = .ok job) :
    evaluate o items u go status mem = (if go then [chain u items] else []) ++
      behind o items job.mem (outcome o (chain u items) job go status) := by
  rw [evaluate.eq_def]
  dsimp only
  rw [hjob]
  dsimp only
  cases outcome o (chain u items) job go status <;> cases items <;> rfl

/-- **What is run is on the line.** -/
theorem length_place {line : Str} {ran : List Ran} (h : lineLoop o k line go mem = .ok ran) :
    ∀ r ∈ ran, r.place.length ≤ line.length := by
  induction k generalizing line go mem ran with
  | zero => exact absurd h (by simp [lineLoop])
  | succ k ih =>
    obtain ⟨job, hjob, hran⟩ := lineLoop_cases h
    have hspec := parseJob_spec o 0 line mem
    rw [hjob] at hspec
    have hone : ∀ r ∈ (runJob o line job go).2, r.place.length ≤ line.length := by
      intro r hr
      rw [runJob] at hr
      split at hr
      · rw [List.mem_singleton.mp hr]
      · exact absurd hr List.not_mem_nil
    rcases hran with rfl | ⟨go', ran', hrest, rfl⟩
    · exact hone
    · intro r hr
      rcases List.mem_append.mp hr with hr | hr
      · exact hone r hr
      · exact (ih hrest r hr).trans hspec.2.2.1.length_le

/-- And so is what should be run. -/
theorem length_behind {left : Outcome} (h : p ∈ behind o items mem left) :
    p.length < (tailText items).length := by
  induction items generalizing mem left with
  | nil =>
    have hnone : behind o [] mem left = [] := by cases left <;> rfl
    rw [hnone] at h
    exact absurd h List.not_mem_nil
  | cons item items ih =>
    obtain ⟨j, u⟩ := item
    have hlt := length_tailText_cons j u items
    cases left with
    | exit => exact absurd h List.not_mem_nil
    | replaced => exact absurd h List.not_mem_nil
    | status n =>
      have h : p ∈ evaluate o items u (j.runs n) n mem := h
      cases hjob : parseJob o 0 (chain u items) mem with
      | error q =>
        rw [evaluate.eq_def] at h
        dsimp only at h
        rw [hjob] at h
        exact absurd h List.not_mem_nil
      | ok job =>
        rw [evaluate_eq hjob] at h
        rcases List.mem_append.mp h with h | h
        · split at h
          · rw [List.mem_singleton.mp h]
            exact hlt
          · exact absurd h List.not_mem_nil
        · have := ih h
          rw [chain, List.length_append] at hlt
          omega

/-- A job that is read runs if it should. One that is not run returns 0. -/
theorem runJob_spec (o : World) (p : Str) (go : Bool) (hstages : job.stages ≠ []) :
    (runJob o p job go).1 = outcome o p job go 0 ∧
    (runJob o p job go).2.map Ran.place = if go then [p] else [] := by
  cases go with
  | true =>
    rw [runJob, if_pos ⟨hstages, rfl⟩]
    exact ⟨rfl, rfl⟩
  | false =>
    rw [runJob, if_neg fun h => absurd h.2 Bool.false_ne_true]
    exact ⟨rfl, rfl⟩

/-- **One turn of the loop**, at a job that is read. -/
theorem lineLoop_of_readTo {j : Joint} {u' : Str} (h : ReadTo o u (tailText ((j, u') :: items)) mem)
    (hjob : parseJob o 0 (chain u ((j, u') :: items)) mem = .ok job) :
    lineLoop o (k + 1) (chain u ((j, u') :: items)) go mem =
      match outcome o (chain u ((j, u') :: items)) job go 0 with
      | .status status => (lineLoop o k (chain u' items) (j.runs status) job.mem).map
          ((runJob o (chain u ((j, u') :: items)) job go).2 ++ ·)
      | _ => .ok (runJob o (chain u ((j, u') :: items)) job go).2 := by
  obtain ⟨job', hjob', hstages, hop⟩ := h.parseJob
  obtain rfl := Except.ok.inj (hjob'.symm.trans hjob)
  obtain ⟨hop, hrest⟩ : job'.op = j.op ∧ job'.rest = chain u' items := hop
  obtain ⟨hleft, -⟩ := runJob_spec o (chain u ((j, u') :: items)) go hstages
  rw [lineLoop, hjob, ← hleft]
  dsimp only
  cases (runJob o (chain u ((j, u') :: items)) job' go).1 with
  | exit => rfl
  | replaced => rfl
  | status n =>
    rw [hop, hrest]
    cases j <;> rfl

/-- **The last turn.** -/
theorem lineLoop_of_readTo_nil (h : ReadTo o u (tailText []) mem)
    (hjob : parseJob o 0 (chain u []) mem = .ok job) :
    lineLoop o (k + 1) (chain u []) go mem = .ok (runJob o (chain u []) job go).2 := by
  obtain ⟨job', hjob', -, hop⟩ := h.parseJob
  obtain rfl := Except.ok.inj (hjob'.symm.trans hjob)
  have hop : job'.op = 0 := hop
  rw [lineLoop, hjob]
  dsimp only
  rw [hop]
  cases (runJob o (chain u []) job' go).1 <;> rfl

/-- A job that is read and should be run is the first one that is. -/
theorem place_of_run {ran : List Ran} (h : ReadTo o u (tailText items) mem)
    (hloop : lineLoop o (k + 1) (chain u items) true mem = .ok ran) :
    chain u items ∈ ran.map Ran.place := by
  obtain ⟨job, hjob, hstages, -⟩ := h.parseJob
  obtain ⟨job', hjob', hran⟩ := lineLoop_cases hloop
  obtain rfl := Except.ok.inj (hjob.symm.trans hjob')
  have hplace : chain u items ∈ (runJob o (chain u items) job true).2.map Ran.place := by
    rw [(runJob_spec o (chain u items) true hstages).2]
    exact List.mem_singleton_self _
  rcases hran with rfl | ⟨go', ran', -, rfl⟩
  · exact hplace
  · rw [List.map_append]
    exact List.mem_append_left _ hplace

/-- One that is passed over is not run. -/
theorem length_skipped {ran : List Ran} (h : ReadTo o u (tailText items) mem)
    (hloop : lineLoop o (k + 1) (chain u items) false mem = .ok ran) :
    ∀ r ∈ ran, r.place.length < (chain u items).length := by
  obtain ⟨job, hjob, hstages, -⟩ := h.parseJob
  have hnone : (runJob o (chain u items) job false).2 = [] := by
    rw [runJob, if_neg fun h => absurd h.2 Bool.false_ne_true]
  cases items with
  | nil =>
    rw [lineLoop_of_readTo_nil h hjob, hnone] at hloop
    obtain rfl := Except.ok.inj hloop
    exact fun r hr => absurd hr List.not_mem_nil
  | cons item items =>
    obtain ⟨j, u'⟩ := item
    rw [lineLoop_of_readTo h hjob, hnone] at hloop
    have hloop : (lineLoop o k (chain u' items) (j.runs 0) job.mem).map ([] ++ ·) = .ok ran := hloop
    intro r hr
    cases hrest : lineLoop o k (chain u' items) (j.runs 0) job.mem with
    | error q =>
      rw [hrest] at hloop
      exact absurd hloop (by simp [Except.map])
    | ok ran' =>
      rw [hrest] at hloop
      obtain rfl : ran' = ran := Except.ok.inj hloop
      have hle := length_place hrest r hr
      have hlt := length_tailText_cons j u' items
      rw [chain, List.length_append]
      omega

/-! ## When it is what should be run -/

theorem allRead_cons {j : Joint} {u' : Str} (h : AllRead o ((j, u') :: items) u go status mem)
    (hjob : parseJob o 0 (chain u ((j, u') :: items)) mem = .ok job) :
    match outcome o (chain u ((j, u') :: items)) job go status with
    | .status status => AllRead o items u' (j.runs status) status job.mem
    | .replaced => False
    | .exit => True := by
  rw [AllRead.eq_def] at h
  dsimp only at h
  rw [hjob] at h
  have h := h.2
  dsimp only at h
  cases hleft : outcome o (chain u ((j, u') :: items)) job go status <;> rw [hleft] at h <;> exact h

theorem AllRead.readTo (h : AllRead o items u go status mem) : ReadTo o u (tailText items) mem := by
  rw [AllRead.eq_def] at h
  exact h.1

theorem careful_cons {j : Joint} {u' : Str}
    (hjob : parseJob o 0 (chain u ((j, u') :: items)) mem = .ok job) :
    Careful o ((j, u') :: items) u go status mem ↔
      match outcome o (chain u ((j, u') :: items)) job go status with
      | .status status =>
        (go = false → status ≠ 0 → j = .next) ∧ Careful o items u' (j.runs status) status job.mem
      | _ => True := by
  rw [Careful.eq_def]
  dsimp only
  rw [hjob]
  dsimp only
  cases outcome o (chain u ((j, u') :: items)) job go status <;> exact Iff.rfl

/-- What has been run in front of it is right, so it is all about the rest. -/
theorem runs_append {done : List Ran} {places places' : List Str} {r : Except Str (List Ran)}
    (hdone : done.map Ran.place = places) : Runs (r.map (done ++ ·)) (places ++ places') ↔
    Runs r places' := by
  cases r with
  | error q =>
    exact iff_of_false (fun ⟨_, h, _⟩ => by simp [Except.map] at h) fun ⟨_, h, _⟩ => by simp at h
  | ok ran =>
    constructor
    · rintro ⟨ran', hran, hplaces⟩
      obtain rfl : done ++ ran = ran' := Except.ok.inj hran
      rw [List.map_append, hdone] at hplaces
      exact ⟨ran, rfl, List.append_cancel_left hplaces⟩
    · rintro ⟨ran', hran, hplaces⟩
      obtain rfl := Except.ok.inj hran
      exact ⟨done ++ ran, rfl, by rw [List.map_append, hdone, hplaces]⟩

/-- **Where a status is lost that matters**, the next job is run although it should not be, or the
other way round. -/
theorem not_runs_of_lost (hread : ReadTo o u (tailText items) mem) (hgo : go ≠ j.runs status) :
    ¬Runs (lineLoop o (k + 1) (chain u items) go mem)
    (evaluate o items u (j.runs status) status mem) := by
  rintro ⟨ran, hloop, hplaces⟩
  obtain ⟨job, hjob, -⟩ := hread.parseJob
  rw [evaluate_eq hjob] at hplaces
  cases hruns : j.runs status with
  | false =>
    rw [hruns] at hplaces hgo
    obtain rfl := Bool.eq_true_of_not_eq_false hgo
    have hmem := place_of_run hread hloop
    rw [hplaces] at hmem
    have hlt := length_behind ((List.mem_append.mp hmem).resolve_left List.not_mem_nil)
    rw [chain, List.length_append] at hlt
    omega
  | true =>
    rw [hruns] at hplaces hgo
    obtain rfl := Bool.eq_false_of_not_eq_true hgo
    have hmem : chain u items ∈ ran.map Ran.place := by
      rw [hplaces]
      exact List.mem_append_left _ List.mem_cons_self
    obtain ⟨r, hr, hplace⟩ := List.mem_map.mp hmem
    have hlt := length_skipped hread hloop r hr
    rw [hplace] at hlt
    exact absurd hlt (lt_irrefl _)

/-- **When the right jobs are run**, from any job of a list on. -/
theorem lineLoop_iff_careful (hread : AllRead o items u go status mem)
    (hk : (chain u items).length < k) :
    Runs (lineLoop o k (chain u items) go mem) (evaluate o items u go status mem) ↔
      Careful o items u go status mem := by
  induction items generalizing k u go status mem with
  | nil =>
    obtain ⟨k, rfl⟩ : ∃ n, k = n + 1 := ⟨k - 1, by omega⟩
    obtain ⟨job, hjob, hstages, -⟩ := hread.readTo.parseJob
    have hend : ∀ left, behind o [] job.mem left = [] := fun left => by cases left <;> rfl
    rw [lineLoop_of_readTo_nil hread.readTo hjob, evaluate_eq hjob, hend,
      List.append_nil, Careful.eq_def]
    dsimp only
    rw [hjob]
    refine iff_of_true ⟨_, rfl, (runJob_spec o (chain u []) go hstages).2⟩ ?_
    dsimp only
    cases outcome o (chain u []) job go status <;> trivial
  | cons item items ih =>
    obtain ⟨j, u'⟩ := item
    obtain ⟨k, rfl⟩ : ∃ n, k = n + 1 := ⟨k - 1, by omega⟩
    obtain ⟨job, hjob, hstages, -⟩ := hread.readTo.parseJob
    have hplaces := (runJob_spec o (chain u ((j, u') :: items)) go hstages).2
    have hlen : (chain u' items).length < k := by
      have := length_tailText_cons j u' items
      rw [chain, List.length_append] at hk
      omega
    have hnext := allRead_cons hread hjob
    rw [lineLoop_of_readTo hread.readTo hjob, evaluate_eq hjob, careful_cons hjob]
    cases go with
    | true =>
      -- the job is run, and its status is what it returns
      have hleft : outcome o (chain u ((j, u') :: items)) job true status =
          outcome o (chain u ((j, u') :: items)) job true 0 := rfl
      rw [hleft] at hnext ⊢
      cases hout : outcome o (chain u ((j, u') :: items)) job true 0 with
      | replaced =>
        rw [hout] at hnext
        exact hnext.elim
      | exit => exact iff_of_true ⟨_, rfl, by rw [hplaces]; exact (List.append_nil _).symm⟩ trivial
      | status n =>
        rw [hout] at hnext
        exact (runs_append hplaces).trans
          ((ih hnext hlen).trans ⟨fun h => ⟨fun hgo => absurd hgo (by decide), h⟩, fun h => h.2⟩)
    | false =>
      have hnext : AllRead o items u' (j.runs status) status job.mem := hnext
      refine (runs_append hplaces).trans ?_
      change Runs (lineLoop o k (chain u' items) (j.runs 0) job.mem)
        (evaluate o items u' (j.runs status) status job.mem) ↔
        (false = false → status ≠ 0 → j = .next) ∧ Careful o items u' (j.runs status) status job.mem
      by_cases hruns : j.runs 0 = j.runs status
      · -- `||` has passed over the job, or a semicolon is behind it
        rw [hruns]
        refine (ih hnext hlen).trans ⟨fun h => ⟨fun _ hne => ?_, h⟩, fun h => h.2⟩
        cases j with
        | next => rfl
        | both => exact absurd hruns (by simp [Joint.runs, hne])
        | either => exact absurd hruns (by simp [Joint.runs, hne])
      · -- `&&` has passed over it, and the status is lost
        obtain ⟨k, rfl⟩ : ∃ n, k = n + 1 := ⟨k - 1, by omega⟩
        refine iff_of_false (not_runs_of_lost hnext.readTo hruns) fun h => hruns ?_
        by_cases hzero : status = 0
        · rw [hzero]
        · rw [h.1 rfl hzero]
          rfl

/-- **When `run_line` runs the right jobs**, if it reads them as they are. -/
theorem runLine_iff (o : World) (u : Str) (items : Tail) (mem : Mem)
    (hread : AllRead o items u true 0 mem) :
    RunsRight o u items mem ↔ Careful o items u true 0 mem :=
  lineLoop_iff_careful hread (Nat.lt_succ_self _)

/-! ## Jobs that fit -/

theorem runOne_ne_replaced (c : Command) (h : ∀ i, (o.fate p i).pid ≠ 0) :
    (runOne o p c).1 ≠ .replaced := by
  rw [runOne]
  split
  · exact Outcome.noConfusion
  split
  · exact Outcome.noConfusion
  split
  · exact Outcome.noConfusion
  rw [if_neg (h 0)]
  split <;> exact Outcome.noConfusion

theorem pipelineLoop_ne_replaced (i : ℕ) (cs : List Command) (kids : Kids)
    (h : ∀ i, (o.fate p i).pid ≠ 0) :
    (pipelineLoop o p i cs kids).1 ≠ some .replaced := by
  induction cs generalizing i kids with
  | nil => simp [pipelineLoop]
  | cons c cs ih =>
    rw [pipelineLoop]
    dsimp only
    split
    · simp
    split
    · simp
    split
    · simp
    split
    · simp
    rw [if_neg (h i)]
    split
    · exact ih _ _
    · exact ih _ _

/-- Where `fork` does not return 0 to it, the shell does not go the way of a child. -/
theorem perform_ne_replaced (cs : List Command) (background : Bool)
    (h : ∀ i, (o.fate p i).pid ≠ 0) :
    (perform o p cs background).1 ≠ .replaced := by
  cases cs with
  | nil => exact Outcome.noConfusion
  | cons c cs =>
    rw [perform]
    split
    · dsimp only
      split <;> exact Outcome.noConfusion
    · cases cs with
      | nil => exact runOne_ne_replaced c h
      | cons c' cs =>
        have hloop := pipelineLoop_ne_replaced 0 (c :: c' :: cs) [] h
        rw [runPipeline]
        · cases hleft : (pipelineLoop o p 0 (c :: c' :: cs) []).1 with
          | some left => exact fun h => hloop (hleft.trans (congrArg some h))
          | none => cases background <;> exact Outcome.noConfusion
        · exact fun _ h => absurd (List.cons.inj h).2 (by simp)

/-- The texts of some jobs, with the operator in front of each. -/
def texts (js : List (Joint × PipeText o)) : Tail := js.map fun x => (x.1, x.2.text)

/-- No job is larger than a job can be. -/
def AllFit : PipeText o → List (Joint × PipeText o) → Prop
  | x, [] => x.Fits []
  | x, (j, y) :: js => x.Fits (tailText (texts ((j, y) :: js))) ∧ AllFit y js

theorem PipeText.readTo {x : PipeText o} (hrest : JobEnd rest) (hfits : x.Fits rest) (mem : Mem) :
    ReadTo o x.text rest mem := by
  obtain ⟨t, hloop, hp, hshows⟩ := parse_pipeText x hrest.jobStop hfits mem
  exact ⟨t, hloop, hp, stages_ne_nil hshows⟩

/-- **Jobs that are not larger than a job can be are read.** -/
theorem allRead_of_fits {x : PipeText o} {js : List (Joint × PipeText o)}
    (hfork : ∀ place i, (o.fate place i).pid ≠ 0) (h : AllFit x js) :
    AllRead o (texts js) x.text go status mem := by
  induction js generalizing x go status mem with
  | nil =>
    rw [AllRead.eq_def]
    refine ⟨PipeText.readTo .nil h mem, ?_⟩
    split
    · trivial
    · next job _ =>
      cases outcome o (chain x.text (texts [])) job go status <;> trivial
  | cons y js ih =>
    obtain ⟨j, y⟩ := y
    rw [AllRead.eq_def]
    refine ⟨PipeText.readTo (jobEnd_tailText _) h.1 mem, ?_⟩
    split
    · trivial
    · next job _ =>
      have hne : outcome o (chain x.text (texts ((j, y) :: js))) job go status ≠ .replaced := by
        cases go with
        | true => exact perform_ne_replaced _ _ (hfork _)
        | false => exact Outcome.noConfusion
      cases hleft : outcome o (chain x.text (texts ((j, y) :: js))) job go status with
      | status n => exact ih h.2
      | exit => trivial
      | replaced => exact hne hleft

/-! ## A status that is lost -/

/-- A world in which each program fails. -/
def World.failing : World := { World.bare with fate := fun _ _ => ⟨true, true, true, true, 2, 1⟩ }

/-- `b` and `c`, each behind `&&`. -/
def bothLetters : Tail := [(.both, [98]), (.both, [99])]

/-- They are read. -/
theorem letters_iff : RunsRight World.failing [97] bothLetters Mem.clear ↔
    Careful World.failing bothLetters [97] true 0 Mem.clear := by
  have hfit : AllFit (PipeText.letter World.failing 97 (by decide))
      [(.both, PipeText.letter World.failing 98 (by decide)),
        (.both, PipeText.letter World.failing 99 (by decide))] :=
    ⟨PipeText.letter_fits _ _, PipeText.letter_fits _ _, PipeText.letter_fits _ _⟩
  exact runLine_iff World.failing [97] bothLetters Mem.clear
    (allRead_of_fits (fun _ _ => (by decide : (2 : ℤ) ≠ 0)) hfit)

/-- `a&&b&&c`, where `a` fails: `c` is run. -/
theorem and_runs : ¬RunsRight World.failing [97] bothLetters Mem.clear := by
  rintro ⟨ran, hran, hplaces⟩
  have hcode : (runLine World.failing (chain [97] bothLetters) Mem.clear).toOption.map
    (List.map Ran.place) =
      some [[97, 38, 38, 98, 38, 38, 99], [99]] := by decide +kernel
  have hspec : evaluate World.failing bothLetters [97] true 0 Mem.clear =
      [[97, 38, 38, 98, 38, 38, 99]] := by
    decide +kernel
  rw [hran] at hcode
  rw [hspec] at hplaces
  have hcode : ran.map Ran.place = [[97, 38, 38, 98, 38, 38, 99], [99]] := Option.some.inj hcode
  exact absurd (hcode.symm.trans hplaces) (by decide)

end Sh

end Aurisys
