import Aurisys.Lib.Overlay
import Aurisys.Sh.Word

/-!
# Jobs and lines

`run_job` reads the stages of a job, each with its words and where its input and output go. The
words are kept in `g_bank`, and a stage has pointers to them. `glob_stage` puts other pointers in
the place of a word that matches something: they point into `hits`, which all the words of all
stages share. What the pointers point to is looked at when the job is started. `run_line` goes from
job to job, and what is behind a job says whether the next one is run.

Nothing is modelled of the numbers of descriptors, of the tables of jobs that are kept for `jobs`
and for the interrupt key, and of the messages.

## Main definitions

* `World` — what the code asks of the rest of the system
* `Stage`, `Mem` — a stage, and the memory its pointers point to
* `globStage`, `wordLoop`, `stageLoop`, `parseJob` — `run_job` up to where the job is started
* `runOne`, `runPipeline`, `execute` — how a job is started
* `runLine` — the code of `run_line`

## Main results

* `wordTurn_spec`, `stageLoop_spec`, `parseJob_spec`
* `reader_terminates` — when lines come to an end
-/

namespace Aurisys

namespace Sh

/-! ## The code -/

/-- The name in a `vfs_dirent`. -/
abbrev Entry := { name : Str // name.length < 64 }

/-- What becomes of a stage. -/
structure Fate where
  /-- `pipe` has room for the pipe behind it. -/
  pipe : Bool
  /-- `open_redir` opens the file to read from. -/
  input : Bool
  /-- `open_redir` opens the file to write to. -/
  output : Bool
  /-- `which` finds a program. -/
  found : Bool
  /-- What `fork` returns to the shell. That is 0 when no child could be made. -/
  pid : ℤ
  /-- What `wait_pid` returns. -/
  status : ℤ

/-- The rest of the system. The fates are those of the job that begins at a place. -/
structure World extends Outside where
  /-- The entries that `readdir` brings, if the directory can be opened. -/
  dir : Str → Str → Option (List Entry)
  fate : Str → ℕ → Fate
  /-- Whether this is process 1. -/
  first : Bool

/-- `redir`. -/
structure Redir where
  kind : UInt8
  path : Str

inductive Ptr
  | null
  | bank (stage slot : ℕ)
  | hit (k : ℕ)

/-- What a word was when it had been read: what was typed, or the names that it matched. -/
inductive Origin
  | kept (s : Str)
  | hits (l : List Str)

/-- `stage`. The code does not have what the words were when they had been read. -/
structure Stage where
  argc : ℕ
  word : ℕ → Ptr
  input : Redir
  output : Redir
  origins : List Origin

/-- The bank of a depth, and `hits`. -/
structure Mem where
  bank : ℕ → ℕ → Str
  hits : ℕ → Str

/-- A string in a buffer ends at the first zero. -/
def cstr (s : Str) : Str := s.takeWhile (· ≠ 0)

def Mem.deref (m : Mem) : Ptr → Str
  | .null => []
  | .bank i j => m.bank i j
  | .hit k => m.hits k

def Mem.setBank (m : Mem) (i j : ℕ) (s : Str) : Mem :=
  { m with bank := fun i' j' => if i' = i ∧ j' = j then s else m.bank i' j' }

/-- The first strings of `hits` are replaced. -/
def Mem.setHits (m : Mem) (l : List Str) : Mem := { m with hits := Overlay.overlay m.hits l }

def Stage.empty : Stage := ⟨0, fun _ => .null, ⟨0, []⟩, ⟨0, []⟩, []⟩

/-- `cur.word[cur.argc++] = p`. -/
def Stage.push (cur : Stage) (p : Ptr) : Stage :=
  { cur with argc := cur.argc + 1, word := Function.update cur.word cur.argc p }

/-- The pointers to the words. -/
def Stage.args (cur : Stage) : List Ptr := (List.range cur.argc).map cur.word

/-- `is_dot`. -/
def isDot (s : Str) : Bool := s = [46] || s = [46, 46]

/-- The text up to the last slash of a word. -/
def globDir (w : Str) : Str := w.rdropWhile (· ≠ Path.slash)

/-- What is behind the last slash. -/
def globPattern (w : Str) : Str := w.drop (globDir w).length

/-- `dir`: what is opened, and what is put in front of the names. -/
def globPath (w : Str) : Str := if globDir w = [] then [46] else (globDir w).take (kWordMax - 1)

/-- The entries that a pattern matches. -/
def matching (pat : Str) (names : List Entry) : List Entry :=
  names.filter fun e => !isDot e.1 && globMatch pat e.1

/-- What is stored for an entry. -/
def hitOf (dir name : Str) : Str :=
  dir.take (kWordMax - 2) ++ name.take (kWordMax - 1 - (dir.take (kWordMax - 2)).length)

/-- The loops of `glob_stage` over the entries. -/
def globHits (o : World) (place w : Str) (slot : ℕ) : List Str :=
  if hasGlob w then
    match o.dir place (globPath w) with
    | none => []
    | some names =>
      ((matching (globPattern w) (names.take 64)).take (kMaxWord - slot)).map fun e =>
        hitOf (globPath w) e.1
  else []

/-- The words from `slot` on are moved up by `nh`. The loop goes down. -/
def shiftWords (slot nh : ℕ) : ℕ → (ℕ → Ptr) → ℕ → Ptr
  | 0, word => word
  | k + 1, word => shiftWords slot nh k (Function.update word (slot + nh + k) (word (slot + k)))

/-- The pointers to the hits are put in from `slot` on. -/
def placeHits (slot : ℕ) : ℕ → (ℕ → Ptr) → ℕ → Ptr
  | 0, word => word
  | k + 1, word => Function.update (placeHits slot k word) (slot + k) (.hit k)

/-- `glob_stage`. -/
def globStage (o : World) (place : Str) (cur : Stage) (mem : Mem) (nstage slot : ℕ) : Stage × Mem :=
  let hits := globHits o place (mem.bank nstage slot) slot
  if hits = [] then (cur, mem)
  else
    let word := shiftWords slot hits.length (kMaxWord - (slot + hits.length)) cur.word
    ({ cur with argc := cur.argc + (hits.length - 1), word := placeHits slot hits.length word },
      mem.setHits hits)

/-- The cursor, the stage that is being read, and the memory. -/
structure Parse where
  p : Str
  cur : Stage
  mem : Mem

/-- A word has been read into the bank. -/
def takeWord (o : World) (nstage : ℕ) (r : Reader) (s : Parse) : Parse :=
  let w := cstr r.text
  let mem := s.mem.setBank nstage s.cur.argc w
  if r.any then
    let cur := s.cur.push (.bank nstage s.cur.argc)
    let slot := cur.argc - 1
    let g := globStage o r.p cur mem nstage slot
    let hits := globHits o r.p w slot
    ⟨r.p, { g.1 with origins := cur.origins ++ [if hits = [] then .kept w else .hits hits] }, g.2⟩
  else { s with p := r.p, mem := mem }

/-- `>>` appends. The cursor is behind the first character. -/
def appends (c : UInt8) (q : Str) : Bool := c = greater ∧ q.head? = some greater

/-- `>`, `>>` and `<`, with the file behind it. -/
def redirect (o : World) (depth : ℕ) (c : UInt8) (q : Str) (s : Parse) :
    Except Str (Option Parse) :=
  let behind := if appends c q then q.tail else q
  match readWord o.toOutside kWordMax depth behind with
  | none => .error behind
  | some r =>
    let dest : Redir := ⟨if appends c q then 97 else c, cstr r.text⟩
    .ok (some ⟨r.p, if c = less then { s.cur with input := dest }
      else { s.cur with output := dest }, s.mem⟩)

/-- The loop over words that there is no room for. -/
def skipWords (p : Str) : Str := p.dropWhile fun c => !isOp c && c ≠ amp

/-- One turn of the loop over the words of a stage. It says if the loop is over. If `read_word` does
not return, it says where. -/
def wordTurn (o : World) (nstage depth : ℕ) (s : Parse) : Except Str (Option Parse) :=
  match skipBlanks s.p with
  | [] => .ok none
  | c :: q =>
    if c = greater ∨ c = less then redirect o depth c q s
    else if isOp c ∨ c = amp then .ok none
    else if kMaxWord ≤ s.cur.argc then .ok (some { s with p := skipWords (c :: q) })
    else
      match readWord o.toOutside kWordMax depth (c :: q) with
      | none => .error (c :: q)
      | some r => .ok (some (takeWord o nstage r s))

/-- The loop over the words of a stage. -/
def wordLoop (o : World) (nstage depth : ℕ) : ℕ → Parse → Except Str Parse
  | 0, s => .error s.p
  | k + 1, s =>
    match wordTurn o nstage depth s with
    | .error q => .error q
    | .ok none => .ok s
    | .ok (some s) => wordLoop o nstage depth k s

/-- The loop behind a pipeline that has too many stages. -/
def skipStages (p : Str) : Str := p.dropWhile fun c => c ≠ semicolon && c ≠ amp

/-- What has been read of a job. -/
structure Stages where
  p : Str
  stages : List Stage
  mem : Mem

/-- The loop over the stages of a job. -/
def stageLoop (o : World) (depth : ℕ) : ℕ → Stages → Except Str Stages
  | 0, s => .error s.p
  | k + 1, s =>
    match wordLoop o s.stages.length depth (s.p.length + 1) ⟨s.p, Stage.empty, s.mem⟩ with
    | .error q => .error q
    | .ok w =>
      let p := skipBlanks w.p
      if w.cur.argc = 0 then .ok ⟨p, s.stages, w.mem⟩
      else
        let stages := s.stages ++ [w.cur]
        if p.head? = some pipeSign ∧ p.tail.head? ≠ some pipeSign then
          if kMaxStage ≤ stages.length then .ok ⟨skipStages p.tail, stages, w.mem⟩
          else stageLoop o depth k ⟨p.tail, stages, w.mem⟩
        else .ok ⟨p, stages, w.mem⟩

/-- `read_op`. -/
def readOp (p : Str) : UInt8 × Str :=
  match skipBlanks p with
  | [] => (0, [])
  | c :: q => (c, if (c = amp ∨ c = pipeSign) ∧ q.head? = some c then q.tail else q)

/-- A job that has been read. -/
structure Job where
  rest : Str
  op : UInt8
  stages : List Stage
  background : Bool
  mem : Mem

/-- `run_job` up to where the job is started. -/
def parseJob (o : World) (depth : ℕ) (line : Str) (mem : Mem) : Except Str Job :=
  match stageLoop o depth (kMaxStage + 1) ⟨line, [], mem⟩ with
  | .error q => .error q
  | .ok s =>
    let background : Bool := s.p.head? = some amp ∧ s.p.tail.head? ≠ some amp
    let r := readOp (if background then s.p.tail else s.p)
    .ok ⟨r.2, r.1, s.stages, background, s.mem⟩

/-- A stage as it is started. -/
structure Command where
  argv : List Str
  input : Redir
  output : Redir

/-- `run_stage` takes what the pointers point to. -/
def Stage.command (s : Stage) (m : Mem) : Command := ⟨s.args.map m.deref, s.input, s.output⟩

/-- What the shell does. -/
inductive Event
  | start (pid : ℤ) (argv : List Str)
  | builtin (argv : List Str)
  | wait (pid : ℤ)
  /-- `fork` has returned 0 to the shell itself, which goes the way of the child to `execve`, or to
  `exit` behind it. -/
  | exec (argv : List Str)

/-- The arguments of what is started. A stage that the shell itself goes on as has not been
started. -/
def Event.argv? : Event → Option (List Str)
  | .start _ argv => some argv
  | .builtin argv => some argv
  | .wait _ => none
  | .exec _ => none

/-- What becomes of the shell behind a job: it has a status, it has come to its end with `exit`, or
it has gone the way of a child. -/
inductive Outcome
  | status (n : ℤ)
  | exit
  | replaced

/-- `run_one`. -/
def runOne (o : World) (place : Str) (c : Command) : Outcome × List Event :=
  let f := o.fate place 0
  if c.input.kind ≠ 0 ∧ f.input = false then (.status 1, [])
  else if c.output.kind ≠ 0 ∧ f.output = false then (.status 1, [])
  else if f.found = false then (.status 127, [])
  else if f.pid = 0 then (.replaced, [.exec c.argv])
  else if f.pid < 0 then (.status 127, [])
  else (.status f.status, [.start f.pid c.argv, .wait f.pid])

/-- The stages that have been started, with what `wait_pid` will return for each of them. -/
abbrev Kids := List (ℤ × ℤ)

def Kids.waits (kids : Kids) : List Event := kids.map fun k => .wait k.1

/-- The loop of `run_pipeline`: what becomes of the shell, if it is left early, the stages that have
been started, and what has been done. -/
def pipelineLoop (o : World) (place : Str) : ℕ → List Command → Kids →
    Option Outcome × Kids × List Event
  | _, [], kids => (none, kids, [])
  | i, c :: cs, kids =>
    let f := o.fate place i
    if cs ≠ [] ∧ f.pipe = false then (some (.status 1), kids, kids.waits)
    else if i = 0 ∧ c.input.kind ≠ 0 ∧ f.input = false then (some (.status 1), kids, kids.waits)
    else if cs = [] ∧ c.output.kind ≠ 0 ∧ f.output = false then (some (.status 1), kids, kids.waits)
    else if f.found = false then (some (.status 127), kids, kids.waits)
    else if f.pid = 0 then (some .replaced, kids, [.exec c.argv])
    else if f.pid < 0 then pipelineLoop o place (i + 1) cs kids
    else
      let r := pipelineLoop o place (i + 1) cs (kids ++ [(f.pid, f.status)])
      (r.1, r.2.1, .start f.pid c.argv :: r.2.2)

/-- `run_pipeline`. -/
def runPipeline (o : World) (place : Str) (cs : List Command) (background : Bool) :
    Outcome × List Event :=
  match cs with
  | [c] => runOne o place c
  | cs =>
    let r := pipelineLoop o place 0 cs []
    match r.1 with
    | some left => (left, r.2.2)
    | none =>
      if background then (.status 0, r.2.2)
      else (.status ((r.2.1.getLast?.map (·.2)).getD 0), r.2.2 ++ r.2.1.waits)

/-- `exit`. -/
def exitName : Str := [101, 120, 105, 116]

/-- The names that `run_builtin` knows. -/
def builtins : List Str :=
  [[99, 100], [107, 105, 108, 108], [101, 120, 112, 111, 114, 116], [117, 110, 115, 101, 116],
    [101, 110, 118],
    [106, 111, 98, 115], exitName]

/-- A command that `run_builtin` is asked for, and that it knows. -/
def Command.isBuiltin (c : Command) : Bool :=
  c.input.kind = 0 ∧ c.output.kind = 0 ∧ c.argv.headD [] ∈ builtins

/-- What `run_job` does with the stages. -/
def perform (o : World) (place : Str) (cs : List Command) (background : Bool) :
    Outcome × List Event :=
  match cs with
  | [] => (.status 0, [])
  | c :: cs =>
    if cs = [] ∧ c.isBuiltin then
      (if c.argv.headD [] = exitName ∧ o.first = false then .exit else .status 0, [.builtin c.argv])
    else runPipeline o place (c :: cs) background

/-- A job is started with what its pointers point to now. -/
def execute (o : World) (place : Str) (job : Job) : Outcome × List Event :=
  perform o place (job.stages.map fun s => s.command job.mem) job.background

/-- A job that has been run. -/
structure Ran where
  place : Str
  events : List Event

/-- `run_job` behind that: what it returns, if it does, and what it has run. -/
def runJob (o : World) (place : Str) (job : Job) (go : Bool) : Outcome × List Ran :=
  if job.stages ≠ [] ∧ go then
    let r := execute o place job
    (r.1, [⟨place, r.2⟩])
  else (.status 0, [])

/-- The loop of `run_line`: the jobs that it runs. There is nothing behind one that `run_job` does
not return from. -/
def lineLoop (o : World) : ℕ → Str → Bool → Mem → Except Str (List Ran)
  | 0, line, _, _ => .error line
  | k + 1, line, go, mem =>
    match parseJob o 0 line mem with
    | .error q => .error q
    | .ok job =>
      let r := runJob o line job go
      match r.1 with
      | .exit | .replaced => .ok r.2
      | .status status =>
        if job.op = semicolon then (lineLoop o k job.rest true job.mem).map (r.2 ++ ·)
        else if job.op = amp then (lineLoop o k job.rest (status = 0) job.mem).map (r.2 ++ ·)
        else if job.op = pipeSign then (lineLoop o k job.rest (status ≠ 0) job.mem).map (r.2 ++ ·)
        else .ok r.2

/-- `run_line`. -/
def runLine (o : World) (line : Str) (mem : Mem) : Except Str (List Ran) :=
  lineLoop o (line.length + 1) line true mem

/-- A world without names, pipes and directories, in which every program is found. -/
def World.bare : World :=
  ⟨⟨fun _ _ => none, fun _ _ => none⟩, fun _ _ => none, fun _ _ => ⟨true, true,
    true, true, 2, 0⟩, true⟩

def Mem.clear : Mem := ⟨fun _ _ => [], fun _ => []⟩

/-! ## What a turn does -/

variable {o : World} {nstage depth k : ℕ} {p q line : Str} {c : UInt8} {r : Reader}
  {s s' : Parse} {mem : Mem}
  {job : Job}

theorem skipBlanks_cons (h : skipBlanks p = c :: q) : c :: q <:+ p ∧ isBlank c = false := by
  refine ⟨h ▸ skipBlanks_isSuffix p, ?_⟩
  have hne : p.dropWhile isBlank ≠ [] := by
    intro hnil
    exact absurd (h.symm.trans hnil) (by simp)
  have := List.head_dropWhile_not isBlank hne
  have hdrop : p.dropWhile isBlank = c :: q := h
  simpa only [hdrop, List.head_cons] using this

/-- **What a turn of the loop over the words does.** -/
inductive WordTurn (o : World) (nstage depth : ℕ) (s : Parse) : Parse → Prop
  | redirect {input output : Redir} {p : Str} :
    WordTurn o nstage depth s ⟨p, { s.cur with input := input, output := output }, s.mem⟩
  | skip {p : Str} : WordTurn o nstage depth s { s with p := p }
  | word {r : Reader} {p : Str} (hr : readWord o.toOutside kWordMax depth p = some r)
    (hany : r.any = true)
    (hroom : s.cur.argc < kMaxWord) : WordTurn o nstage depth s (takeWord o nstage r s)

theorem takeWord_p (o : World) (nstage : ℕ) (r : Reader) (s : Parse) :
    (takeWord o nstage r s).p = r.p := by
  rw [takeWord]
  dsimp only
  split <;> rfl

theorem skipWords_isSuffix (hop : isOp c = false) (hamp : c ≠ amp) : skipWords (c :: p) <:+ p := by
  have hc : (!isOp c && decide (c ≠ amp)) = true := by rw [hop, decide_eq_true hamp]; rfl
  rw [skipWords, List.dropWhile_cons, if_pos hc]
  exact List.dropWhile_suffix _

theorem redirect_spec (o : World) (depth : ℕ) (c : UInt8) (q : Str) (s : Parse) :
    ∃ q', q' <:+ q ∧ match readWord o.toOutside kWordMax depth q' with
      | none => redirect o depth c q s = .error q'
      | some r => ∃ input output,
        redirect o depth c q s = .ok (some ⟨r.p, { s.cur with input := input, output := output },
          s.mem⟩) := by
  have hsuffix : (if appends c q then q.tail else q) <:+ q := by
    split
    · exact List.tail_suffix q
    · exact List.suffix_rfl
  refine ⟨_, hsuffix, ?_⟩
  rw [redirect]
  dsimp only
  generalize (if appends c q then q.tail else q) = behind
  cases readWord o.toOutside kWordMax depth behind with
  | none => rfl
  | some r =>
    dsimp only
    generalize Redir.mk (if appends c q then 97 else c) (cstr r.text) = dest
    by_cases hc : c = less
    · exact ⟨dest, s.cur.output, by rw [if_pos hc]⟩
    · exact ⟨s.cur.input, dest, by rw [if_neg hc]⟩

/-- **One turn**: the cursor goes on, or the loop is over, or `read_word` does not return. -/
theorem wordTurn_spec (o : World) (nstage depth : ℕ) (s : Parse) :
    match wordTurn o nstage depth s with
    | .error q => q <:+ s.p ∧ readWord o.toOutside kWordMax depth q = none
    | .ok none => True
    | .ok (some s') => WordTurn o nstage depth s s' ∧ s'.p <:+ s.p ∧ s'.p.length < s.p.length := by
  rw [wordTurn]
  cases hskip : skipBlanks s.p with
  | nil => trivial
  | cons c q =>
    obtain ⟨hsuffix, hblank⟩ := skipBlanks_cons hskip
    have hq := (List.suffix_cons c q).trans hsuffix
    have hlen := hsuffix.length_le
    rw [List.length_cons] at hlen
    dsimp only
    by_cases hredir : c = greater ∨ c = less
    · rw [if_pos hredir]
      obtain ⟨q', hq', hspec⟩ := redirect_spec o depth c q s
      have hlen' := hq'.length_le
      cases hr : readWord o.toOutside kWordMax depth q' with
      | none =>
        rw [hr] at hspec
        rw [hspec]
        exact ⟨hq'.trans hq, hr⟩
      | some r =>
        rw [hr] at hspec
        obtain ⟨input, output, hspec⟩ := hspec
        rw [hspec]
        have hrest := readWord_isSuffix hr
        have hlen'' := hrest.length_le
        exact ⟨.redirect, hrest.trans (hq'.trans hq), by dsimp only; omega⟩
    rw [if_neg hredir]
    by_cases hop : isOp c = true ∨ c = amp
    · rw [if_pos hop]
      trivial
    rw [if_neg hop]
    rw [not_or, Bool.not_eq_true] at hop
    by_cases hroom : kMaxWord ≤ s.cur.argc
    · rw [if_pos hroom]
      have hskipped := skipWords_isSuffix hop.1 hop.2 (p := q)
      have := hskipped.length_le
      exact ⟨.skip, hskipped.trans hq, by dsimp only; omega⟩
    rw [if_neg hroom]
    have hstart : wordStart c = true := by rw [wordStart, hblank, hop.1]; rfl
    cases hr : readWord o.toOutside kWordMax depth (c :: q) with
    | none => exact ⟨hsuffix, hr⟩
    | some r =>
      obtain ⟨hlt, hany⟩ := readWord_wordStart hstart hr
      rw [List.length_cons] at hlt
      refine ⟨.word hr hany (Nat.not_le.mp hroom), ?_, ?_⟩
      · rw [takeWord_p]
        exact (readWord_isSuffix hr).trans hsuffix
      · rw [takeWord_p]
        omega

/-! ## When the loops come to an end -/

theorem wordLoop_spec (o : World) (nstage depth : ℕ) (hk : s.p.length < k) :
    match wordLoop o nstage depth k s with
    | .error q => q <:+ s.p ∧ readWord o.toOutside kWordMax depth q = none
    | .ok s' => Relation.ReflTransGen (WordTurn o nstage depth) s s' ∧ s'.p <:+ s.p := by
  induction k generalizing s with
  | zero => exact absurd hk (Nat.not_lt_zero _)
  | succ k ih =>
    have hspec := wordTurn_spec o nstage depth s
    rw [wordLoop]
    cases hturn : wordTurn o nstage depth s with
    | error q =>
      rw [hturn] at hspec
      exact hspec
    | ok next =>
      rw [hturn] at hspec
      cases next with
      | none => exact ⟨.refl, List.suffix_rfl⟩
      | some s' =>
        obtain ⟨hstep, hsuffix, hlt⟩ := hspec
        have hrun := ih (s := s') (by omega)
        dsimp only
        cases hloop : wordLoop o nstage depth k s' with
        | error q =>
          rw [hloop] at hrun
          exact ⟨hrun.1.trans hsuffix, hrun.2⟩
        | ok s'' =>
          rw [hloop] at hrun
          exact ⟨.head hstep hrun.1, hrun.2.trans hsuffix⟩

/-- What the loop over the stages of a job does with the next one. -/
inductive StageTurn (o : World) (depth : ℕ) (s : Stages) : Stages → Prop
  | none {w : Parse} {p : Str}
    (h : Relation.ReflTransGen (WordTurn o s.stages.length depth) ⟨s.p, Stage.empty, s.mem⟩ w)
    (hargc : w.cur.argc = 0) : StageTurn o depth s ⟨p, s.stages, w.mem⟩
  | some {w : Parse} {p : Str}
    (h : Relation.ReflTransGen (WordTurn o s.stages.length depth) ⟨s.p, Stage.empty, s.mem⟩ w)
    (hargc : w.cur.argc ≠ 0) : StageTurn o depth s ⟨p, s.stages ++ [w.cur], w.mem⟩

theorem tail_isSuffix_of_head? (h : p.head? = some c) :
    p.tail <:+ p ∧ p.tail.length < p.length := by
  cases p with
  | nil => exact absurd h (by simp)
  | cons a p => exact ⟨List.suffix_cons a p, Nat.lt_succ_self _⟩

theorem stageLoop_spec (o : World) (depth : ℕ) {s : Stages} (hstages : s.stages.length < kMaxStage)
    (hk : kMaxStage ≤ s.stages.length + k) : match stageLoop o depth k s with
    | .error q => q <:+ s.p ∧ readWord o.toOutside kWordMax depth q = none
    | .ok s' =>
      Relation.ReflTransGen (StageTurn o depth) s s' ∧ s'.p <:+ s.p ∧
      s'.stages.length ≤ kMaxStage := by
  induction k generalizing s with
  | zero => omega
  | succ k ih =>
    have hspec := wordLoop_spec o s.stages.length depth
      (s := ⟨s.p, Stage.empty, s.mem⟩) (k := s.p.length + 1) (Nat.lt_succ_self _)
    rw [stageLoop]
    cases hloop : wordLoop o s.stages.length depth (s.p.length + 1) ⟨s.p, Stage.empty, s.mem⟩ with
    | error q =>
      rw [hloop] at hspec
      exact hspec
    | ok w =>
      rw [hloop] at hspec
      obtain ⟨hturns, hsuffix⟩ := hspec
      have hsuffix : skipBlanks w.p <:+ s.p := (skipBlanks_isSuffix w.p).trans hsuffix
      dsimp only
      by_cases hargc : w.cur.argc = 0
      · rw [if_pos hargc]
        exact ⟨.single (.none hturns hargc), hsuffix, hstages.le⟩
      rw [if_neg hargc]
      have hlen : (s.stages ++ [w.cur]).length ≤ kMaxStage := by
        rw [List.length_append, List.length_singleton]
        omega
      by_cases hpipe : (skipBlanks w.p).head? = some pipeSign ∧
        (skipBlanks w.p).tail.head? ≠ some pipeSign
      · rw [if_pos hpipe]
        have htail := (tail_isSuffix_of_head? hpipe.1).1.trans hsuffix
        by_cases hmax : kMaxStage ≤ (s.stages ++ [w.cur]).length
        · rw [if_pos hmax]
          exact ⟨.single (.some hturns hargc), (List.dropWhile_suffix _).trans htail, hlen⟩
        · rw [if_neg hmax]
          rw [List.length_append, List.length_singleton] at hmax
          have hrun := ih (s := ⟨(skipBlanks w.p).tail, s.stages ++ [w.cur], w.mem⟩)
            (by rw [List.length_append, List.length_singleton]; omega)
            (by rw [List.length_append, List.length_singleton]; omega)
          cases hnext : stageLoop o depth k ⟨(skipBlanks w.p).tail, s.stages ++ [w.cur], w.mem⟩ with
          | error q =>
            rw [hnext] at hrun
            exact ⟨hrun.1.trans htail, hrun.2⟩
          | ok s'' =>
            rw [hnext] at hrun
            exact ⟨.head (.some hturns hargc) hrun.1, hrun.2.1.trans htail, hrun.2.2⟩
      · rw [if_neg hpipe]
        exact ⟨.single (.some hturns hargc), hsuffix, hlen⟩

theorem readOp_spec (p : Str) :
    (readOp p).2 <:+ p ∧ ((readOp p).1 ≠ 0 → (readOp p).2.length < p.length) := by
  rw [readOp]
  cases hskip : skipBlanks p with
  | nil => exact ⟨List.nil_suffix, fun h => absurd rfl h⟩
  | cons c q =>
    have hsuffix := (skipBlanks_cons hskip).1
    have hlen := hsuffix.length_le
    rw [List.length_cons] at hlen
    have hq : (if (c = amp ∨ c = pipeSign) ∧ q.head? = some c then q.tail else q) <:+ q := by
      split
      · exact List.tail_suffix q
      · exact List.suffix_rfl
    have hle := hq.length_le
    exact ⟨hq.trans ((List.suffix_cons c q).trans hsuffix), fun _ => by dsimp only; omega⟩

/-- **`run_job`** reads its job, or `read_word` does not return. -/
theorem parseJob_spec (o : World) (depth : ℕ) (line : Str) (mem : Mem) :
    match parseJob o depth line mem with
    | .error q => q <:+ line ∧ readWord o.toOutside kWordMax depth q = none
    | .ok job =>
      (∃ p, Relation.ReflTransGen (StageTurn o depth) ⟨line, [], mem⟩ ⟨p, job.stages, job.mem⟩) ∧
      job.stages.length ≤ kMaxStage ∧ job.rest <:+ line ∧
        (job.op ≠ 0 → job.rest.length < line.length) := by
  have hspec := stageLoop_spec o depth (s := ⟨line, [], mem⟩) (k := kMaxStage + 1)
    (Nat.zero_lt_succ 3) (Nat.le_add_left_of_le (Nat.le_succ kMaxStage))
  rw [parseJob]
  cases hloop : stageLoop o depth (kMaxStage + 1) ⟨line, [], mem⟩ with
  | error q =>
    rw [hloop] at hspec
    exact hspec
  | ok s =>
    rw [hloop] at hspec
    obtain ⟨hturns, hsuffix, hlen⟩ := hspec
    dsimp only
    have hp : ∀ b : Bool, (if b = true then s.p.tail else s.p) <:+ line := by
      intro b
      cases b with
      | true => exact (List.tail_suffix s.p).trans hsuffix
      | false => exact hsuffix
    have hp := hp (decide (s.p.head? = some amp ∧ s.p.tail.head? ≠ some amp))
    generalize (if decide (s.p.head? = some amp ∧ s.p.tail.head? ≠ some amp) = true then s.p.tail
      else s.p) = p
      at hp
    obtain ⟨hop, hlt⟩ := readOp_spec p
    exact ⟨⟨s.p, hturns⟩, hlen, hop.trans hp, fun h => lt_of_lt_of_le (hlt h) hp.length_le⟩

/-- **What a turn of the loop over the jobs does**: it is the last one, or the loop goes on with
what is behind. -/
theorem lineLoop_cases {go : Bool} {ran : List Ran} (h : lineLoop o (k + 1) line go mem = .ok ran) :
    ∃ job, parseJob o 0 line mem = .ok job ∧
    (ran = (runJob o line job go).2 ∨ ∃ go' ran', lineLoop o k job.rest go' job.mem = .ok ran' ∧
      ran = (runJob o line job go).2 ++ ran') := by
  rw [lineLoop] at h
  cases hjob : parseJob o 0 line mem with
  | error q =>
    rw [hjob] at h
    exact absurd h (by simp)
  | ok job =>
    rw [hjob] at h
    refine ⟨job, rfl, ?_⟩
    have hnext : ∀ {go'}, (lineLoop o k job.rest go' job.mem).map ((runJob o line job go).2 ++ ·) =
      .ok ran →
        ∃ go' ran', lineLoop o k job.rest go' job.mem = .ok ran' ∧
        ran = (runJob o line job go).2 ++ ran' := by
      intro go' hrun
      cases hrest : lineLoop o k job.rest go' job.mem with
      | error q =>
        rw [hrest] at hrun
        exact absurd hrun (by simp [Except.map])
      | ok ran' =>
        rw [hrest] at hrun
        exact ⟨go', ran', hrest, (Except.ok.inj hrun).symm⟩
    dsimp only at h
    split at h
    · exact Or.inl (Except.ok.inj h).symm
    · exact Or.inl (Except.ok.inj h).symm
    split at h
    · exact Or.inr (hnext h)
    split at h
    · exact Or.inr (hnext h)
    split at h
    · exact Or.inr (hnext h)
    · exact Or.inl (Except.ok.inj h).symm

/-- The loop over the jobs comes to its end, or `read_word` does not return. -/
theorem lineLoop_error {go : Bool} (hk : line.length < k)
    (h : lineLoop o k line go mem = .error q) :
    q <:+ line ∧ readWord o.toOutside kWordMax 0 q = none := by
  induction k generalizing line go mem with
  | zero => exact absurd hk (Nat.not_lt_zero _)
  | succ k ih =>
    have hspec := parseJob_spec o 0 line mem
    rw [lineLoop] at h
    cases hparse : parseJob o 0 line mem with
    | error q' =>
      rw [hparse] at hspec h
      obtain rfl : q' = q := Except.error.inj h
      exact hspec
    | ok job =>
      rw [hparse] at hspec h
      obtain ⟨-, -, hsuffix, hlt⟩ := hspec
      -- What is left of the line is read by the next call.
      have hnext : ∀ {go : Bool} {ran : List Ran}, job.op ≠ 0 →
          (lineLoop o k job.rest go job.mem).map (ran ++ ·) = .error q →
          q <:+ line ∧ readWord o.toOutside kWordMax 0 q = none := by
        intro go ran hop hrun
        have := hlt hop
        cases hrest : lineLoop o k job.rest go job.mem with
        | error q' =>
          rw [hrest] at hrun
          obtain rfl : q' = q := Except.error.inj hrun
          obtain ⟨hq, hnone⟩ := ih (by omega) hrest
          exact ⟨hq.trans hsuffix, hnone⟩
        | ok ran' =>
          rw [hrest] at hrun
          exact absurd hrun (by simp [Except.map])
      dsimp only at h
      split at h
      · exact absurd h (by simp)
      · exact absurd h (by simp)
      split at h
      · next hop => exact hnext (by rw [hop]; decide) h
      split at h
      · next hop => exact hnext (by rw [hop]; decide) h
      split at h
      · next hop => exact hnext (by rw [hop]; decide) h
      · exact absurd h (by simp)

open StateTransition in
/-- **When the reader of the shell comes to its end.** A turn of a loop of `read_word` advances
unless the cursor is at a bracket that is not closed, outside of quotes, or in double quotes while
there is room in the word. From there, `read_word` does not return. If the cursor does not come to
such a place, `read_word` returns, and so do `run_job` and `run_line`. -/
theorem reader_terminates (o : World) :
    (∀ outsz depth r r', step o.toOutside outsz depth r = some r' →
      (Advances r r' ↔ ¬Stuck outsz r)) ∧
    (∀ outsz depth p, (eval (step o.toOutside outsz depth) (Reader.start p)).Dom ↔
      ∀ r, Reaches (step o.toOutside outsz depth) (Reader.start p) r → ¬Stuck outsz r) ∧
    (∀ depth line mem, (∃ job, parseJob o depth line mem = .ok job) ∨
      ∃ q r, q <:+ line ∧ parseJob o depth line mem = .error q ∧
        Reaches (step o.toOutside kWordMax depth) (Reader.start q) r ∧ Stuck kWordMax r) ∧
    (∀ line mem, (∃ ran, runLine o line mem = .ok ran) ∨
      ∃ q r, q <:+ line ∧ runLine o line mem = .error q ∧
        Reaches (step o.toOutside kWordMax 0) (Reader.start q) r ∧ Stuck kWordMax r) ∧
    ∀ line mem, (∀ q, q <:+ line → ¬Unclosed q) → ∃ ran, runLine o line mem = .ok ran := by
  have hjob : ∀ depth line mem, (∃ job, parseJob o depth line mem = .ok job) ∨
      ∃ q r, q <:+ line ∧ parseJob o depth line mem = .error q ∧
        Reaches (step o.toOutside kWordMax depth) (Reader.start q) r ∧ Stuck kWordMax r := by
    intro depth line mem
    have hspec := parseJob_spec o depth line mem
    cases hparse : parseJob o depth line mem with
    | ok job => exact Or.inl ⟨job, rfl⟩
    | error q =>
      rw [hparse] at hspec
      obtain ⟨r, hr, hstuck⟩ := readWord_none.mp hspec.2
      exact Or.inr ⟨q, r, hspec.1, rfl, hr, hstuck⟩
  have hline : ∀ line mem, (∃ ran, runLine o line mem = .ok ran) ∨
      ∃ q r, q <:+ line ∧ runLine o line mem = .error q ∧
        Reaches (step o.toOutside kWordMax 0) (Reader.start q) r ∧ Stuck kWordMax r := by
    intro line mem
    cases hrun : runLine o line mem with
    | ok ran => exact Or.inl ⟨ran, rfl⟩
    | error q =>
      obtain ⟨hq, hnone⟩ := lineLoop_error (Nat.lt_succ_self line.length) hrun
      obtain ⟨r, hr, hstuck⟩ := readWord_none.mp hnone
      exact Or.inr ⟨q, r, hq, rfl, hr, hstuck⟩
  refine ⟨fun outsz depth r r' h => advances_iff h,
    fun outsz depth p => (descends _ outsz depth).dom_iff, hjob,
    hline, fun line mem hclosed => ?_⟩
  rcases hline line mem with hok | ⟨q, r, hq, -, hr, hstuck⟩
  · exact hok
  · have hsuffix := (isSuffix_of_reaches hr).trans (skipBlanks_isSuffix q)
    exact absurd hstuck.1 (hclosed r.p (hsuffix.trans hq))

/-- `echo $(` -/
theorem unclosed_hangs :
    runLine World.bare [101, 99, 104, 111, blank, dollar, parenOpen] Mem.clear =
    .error [dollar, parenOpen] ∧
    ¬(StateTransition.eval (step World.bare.toOutside kWordMax 0) (Reader.start [dollar,
      parenOpen])).Dom := by
  refine ⟨rfl, fun hdom => ?_⟩
  have hstuck : Stuck kWordMax (Reader.start [dollar, parenOpen]) :=
    ⟨⟨rfl, rfl, rfl⟩, Or.inl rfl⟩
  exact (descends World.bare.toOutside kWordMax 0).not_dom hstuck hdom

end Sh

end Aurisys
