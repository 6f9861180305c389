import Aurisys.Sh.Complete

/-!
# Where the line editor reads and writes

`read_line` edits a line key by key. Besides the keys that edit the line there are those that bring
a line of the history back, and the tab key.

`splice_word` puts a text into the line and cuts what does not fit. The cursor it puts behind the
text, whether that was cut or not, so behind the line.

## Main definitions

* `Session`, `Session.step` — the line, the history, and the keys of `read_line`
* `Session.touched`, `Editor.redrawn` — the bytes of `g_line` that are read and written
* `Editor.Bounded`, `Session.Stays` — the cursor is in the line, and the line in `g_line`
* `Session.Careful` — what is completed fits in the line

## Main results

* `bounded_splice_iff`
* `Session.Inv.step_iff`
* `Session.confined_iff`
-/

namespace Aurisys

namespace Sh

def kHistMax : ℕ := 32

/-- The string in `g_line`. -/
def lineString (m : Bytes) : Str := ((List.range kLineMax).map m).takeWhile (· ≠ 0)

namespace Editor

/-- `line_set`. -/
def lineSet (e : Editor) (s : Str) : Editor :=
  let m : Bytes :=
    fun q => if q < kLineMax then s.getD q 0 else if q = kLineMax then 0 else e.line q
  ⟨m, (lineString m).length, (lineString m).length⟩

/-- What `splice_word` puts together. -/
def spliced (e : Editor) (s t : ℕ) (ins : Str) : Str :=
  let head := e.text.take s
  let mid := head ++ ins.take (kLineMax - head.length)
  mid ++ (e.text.drop t).take (kLineMax - mid.length)

/-- `strcpy` to `g_line`. -/
def store (m : Bytes) (l : Str) : Bytes :=
  let s := l.takeWhile (· ≠ 0)
  fun q => if q < s.length then s.getD q 0 else if q = s.length then 0 else m q

/-- `splice_word`. -/
def splice (e : Editor) (s t : ℕ) (ins : Str) : Editor :=
  let l := e.spliced s t ins
  ⟨store e.line l, l.length, s + ins.length⟩

end Editor

/-- The line, `g_hist`, `g_browse` and `g_saved`. -/
structure Session where
  ed : Editor
  hist : List Str
  browse : ℕ
  saved : Str

/-- What `read_line` waits for. -/
inductive LineKey
  | edit (k : Key)
  | up
  | down
  | tab (v : View)
  | enter
  | interrupt
  /-- The keys that do nothing. -/
  | other

namespace Session

/-- The shell when it starts. -/
def init (m : Bytes) : Session := ⟨.start m, [], 0, []⟩

/-- How `read_line` begins, and what it does when it is interrupted. -/
def begin_ (s : Session) : Session := { s with ed := .start s.ed.line, browse := s.hist.length }

/-- `hist_add`. -/
def histAdd (s : Session) : Session :=
  if s.ed.n = 0 then s
  else if s.hist.getLast? = some (lineString s.ed.line) then s
  else if s.hist.length < kHistMax then { s with hist := s.hist ++ [lineString s.ed.line] }
  else { s with hist := s.hist.tail ++ [lineString s.ed.line] }

/-- `hist_up`. -/
def histUp (s : Session) : Session :=
  if s.hist = [] then s
  else
    let s :=
      if s.browse = s.hist.length
        then { s with saved := lineString s.ed.line, browse := s.hist.length - 1 }
      else if 0 < s.browse then { s with browse := s.browse - 1 }
      else s
    { s with ed := s.ed.lineSet (s.hist.getD s.browse []) }

/-- `hist_down`. -/
def histDown (s : Session) : Session :=
  if s.hist.length ≤ s.browse then s
  else
    let s := { s with browse := s.browse + 1 }
    if s.browse = s.hist.length then { s with ed := s.ed.lineSet s.saved }
    else { s with ed := s.ed.lineSet (s.hist.getD s.browse []) }

/-- `tab_complete`, as far as it changes the line. -/
def complete (s : Session) (v : View) : Session :=
  match tabComplete v s.ed with
  | .splice a b ins => { s with ed := s.ed.splice a b ins }
  | _ => s

/-- The loop of `read_line`. -/
def step (s : Session) : LineKey → Session
  | .edit k =>
    match k.op with
    | some op => { s with ed := s.ed.step op }
    | none => s
  | .up => s.histUp
  | .down => s.histDown
  | .tab v => s.complete v
  | .enter => s.histAdd.begin_
  | .interrupt => s.begin_
  | .other => s

end Session

/-! ## Bytes that are read and written -/

namespace Editor

/-- The bytes that `redraw_line` and `place_cursor` put on the screen. -/
def redrawn (e : Editor) : List ℕ := List.range e.n ++ List.range e.pos

/-- The bytes that an editing function reads and writes. -/
def touched (e : Editor) : Op → List ℕ
  | .insertChar _ =>
    if kLineMax ≤ e.n then [] else List.range' e.pos (e.n - e.pos + 1) ++ [e.pos, e.n, e.n + 1]
  | .deleteBack =>
    if e.pos = 0 then [] else List.range' (e.pos - 1) (e.n - (e.pos - 1) + 1) ++ [e.n - 1]
  | .deleteForward => if e.n ≤ e.pos then [] else List.range' e.pos (e.n - e.pos) ++ [e.n - 1]
  | _ => []

/-- The bytes that `strcpy` reads from the line. -/
def copied (e : Editor) : List ℕ := List.range ((lineString e.line).length + 1)

end Editor

/-- The bytes of `g_line` that a key makes `read_line` read and write before the line is drawn
again. -/
def Session.touched (s : Session) : LineKey → List ℕ
  | .edit k => k.op.elim [] s.ed.touched
  | .up => s.ed.copied ++ List.range (kLineMax + 1)
  | .down => List.range (kLineMax + 1)
  | .tab v =>
    List.range s.ed.n ++
      match tabComplete v s.ed with
      | .splice a b ins => List.range ((s.ed.spliced a b ins).length + 1)
      | _ => []
  | .enter => s.ed.copied ++ [0]
  | .interrupt => [0]
  | .other => []

/-! ## Bounds -/

/-- **The cursor is in the line, and the line is in `g_line` and has its end there.** -/
structure Editor.Bounded (e : Editor) : Prop where
  /-- The cursor is in the line. -/
  pos_le : e.pos ≤ e.n
  /-- The line is in `g_line`, -/
  n_le : e.n ≤ kLineMax
  /-- and its end is there. -/
  ended : e.line e.n = 0

/-- Each state of a run is bounded, and no key makes `read_line` read or write outside of
`g_line`. -/
def Session.Stays (s : Session) : List LineKey → Prop
  | [] => s.ed.Bounded
  | k :: ks =>
    s.ed.Bounded ∧ (∀ q ∈ s.touched k ++ (s.step k).ed.redrawn, q ≤ kLineMax) ∧ (s.step k).Stays ks

/-- What is completed fits in the line. -/
def Session.Spares (s : Session) : LineKey → Prop
  | .tab v => ∀ a b ins, tabComplete v s.ed = .splice a b ins → a + ins.length ≤ kLineMax
  | _ => True

def Session.Careful (s : Session) : List LineKey → Prop
  | [] => True
  | k :: ks => s.Spares k ∧ (s.step k).Careful ks

/-! ## The line -/

variable {e : Editor} {s : Session} {v : View} {m : Bytes} {a b q : ℕ} {ins : Str}
  {op : Op} {k : LineKey}

namespace Editor

/-- There is no zero in the line. -/
def Full (e : Editor) : Prop := ∀ q < e.n, e.line q ≠ 0

theorem notMem_text_iff (e : Editor) : 0 ∉ e.text ↔ e.Full := by
  rw [text, List.mem_map]
  constructor
  · exact fun h q hq h0 => h ⟨q, List.mem_range.mpr hq, h0⟩
  · rintro h ⟨q, hq, h0⟩
    exact h q (List.mem_range.mp hq) h0

/-- Where the string ends. -/
theorem length_lineString (m : Bytes) :
    (lineString m).length = ((List.range kLineMax).map m).findIdx fun c => !decide (c ≠ 0) := by
  rw [lineString, List.takeWhile_eq_take_findIdx_not, List.length_take,
    Nat.min_eq_left List.findIdx_le_length]

theorem length_lineString_le (m : Bytes) : (lineString m).length ≤ kLineMax := by
  rw [length_lineString]
  exact List.findIdx_le_length.trans (by rw [List.length_map, List.length_range])

theorem lineString_ne (m : Bytes) (hq : q < (lineString m).length) : m q ≠ 0 := by
  rw [length_lineString] at hq
  have h := List.not_of_lt_findIdx hq
  rw [List.getElem_map, List.getElem_range] at h
  simpa using h

theorem lineString_ended (m : Bytes) (h : (lineString m).length < kLineMax) :
    m (lineString m).length = 0 := by
  rw [length_lineString] at h ⊢
  have hlt : ((List.range kLineMax).map m).findIdx (fun c => !decide (c ≠ 0)) <
      ((List.range kLineMax).map m).length := by rwa [List.length_map, List.length_range]
  have hp := List.findIdx_getElem (w := hlt)
  rw [List.getElem_map, List.getElem_range] at hp
  simpa using hp

theorem bounded_lineSet (e : Editor) (str : Str) :
    (e.lineSet str).Bounded ∧ (e.lineSet str).Full := by
  rw [lineSet]
  generalize hm : (fun q => if q < kLineMax then str.getD q 0
    else if q = kLineMax then 0 else e.line q : Bytes) = m
  have hlast : m kLineMax = 0 := by
    rw [← hm]
    simp only [lt_irrefl, if_false, if_true]
  refine ⟨⟨le_rfl, length_lineString_le m, ?_⟩, fun q hq => lineString_ne m hq⟩
  rcases (length_lineString_le m).lt_or_eq with hlt | heq
  · exact lineString_ended m hlt
  · simp only [heq]
    exact hlast

theorem bounded_start (m : Bytes) : (start m).Bounded ∧ (start m).Full :=
  ⟨⟨le_rfl, Nat.zero_le _, Function.update_self 0 0 m⟩, nofun⟩

/-- **The editing functions** keep the cursor in the line. -/
theorem Bounded.step (h : e.Bounded) (hfull : e.Full) (hop : ∀ c, op = .insertChar c → c ≠ 0) :
    (e.step op).Bounded ∧ (e.step op).Full := by
  have hpos := h.pos_le
  have hn := h.n_le
  cases op with
  | insertChar c =>
    by_cases hroom : kLineMax ≤ e.n
    · have hsame : e.step (.insertChar c) = e := if_pos hroom
      rw [hsame]
      exact ⟨h, hfull⟩
    · refine ⟨?_, fun q hq => ?_⟩
      · rw [Editor.step, insertChar, if_neg hroom]
        exact ⟨Nat.succ_le_succ hpos, not_le.mp hroom, Function.update_self ..⟩
      · have hlen : (e.insertChar c).n = e.n + 1 := by rw [insertChar, if_neg hroom]
        have hq : q < e.n + 1 := hlen ▸ hq
        rw [Editor.step, line_insertChar (not_le.mp hroom) hpos (Nat.lt_succ_iff.mp hq)]
        split_ifs
        · exact hfull q (by omega)
        · exact hop c rfl
        · exact hfull (q - 1) (by omega)
  | deleteBack =>
    by_cases h0 : e.pos = 0
    · have hsame : e.step .deleteBack = e := if_pos h0
      rw [hsame]
      exact ⟨h, hfull⟩
    · refine ⟨?_, (notMem_text_iff _).mp fun hmem => ?_⟩
      · rw [Editor.step, deleteBack, if_neg h0]
        exact ⟨Nat.sub_le_sub_right hpos 1, (Nat.sub_le _ _).trans hn, Function.update_self ..⟩
      · rw [Editor.step, text_deleteBack hpos h0] at hmem
        exact (notMem_text_iff e).mpr hfull (List.mem_of_mem_eraseIdx hmem)
  | deleteForward =>
    refine ⟨?_, (notMem_text_iff _).mp fun hmem => ?_⟩
    · rw [Editor.step, deleteForward]
      split
      · exact h
      · exact ⟨by simp only; omega, (Nat.sub_le _ _).trans hn, Function.update_self ..⟩
    · rw [Editor.step, text_deleteForward] at hmem
      exact (notMem_text_iff e).mpr hfull (List.mem_of_mem_eraseIdx hmem)
  | moveCursor delta =>
    rw [Editor.step, moveCursor]
    split
    · exact ⟨h, hfull⟩
    · next hwant => exact ⟨⟨show (e.pos + delta).toNat ≤ e.n by omega, hn, h.ended⟩, hfull⟩
  | home => exact ⟨⟨Nat.zero_le _, hn, h.ended⟩, hfull⟩
  | toEnd => exact ⟨⟨le_rfl, hn, h.ended⟩, hfull⟩

/-! ## Completion -/

theorem length_spliced_le (hn : e.n ≤ kLineMax) (a b : ℕ) (ins : Str) :
    (e.spliced a b ins).length ≤ kLineMax := by
  have hlen := e.length_text
  simp only [spliced, List.length_append, List.length_take, List.length_drop]
  omega

theorem le_length_spliced (ha : a ≤ e.n) (b : ℕ) (h : a + ins.length ≤ kLineMax) :
    a + ins.length ≤ (e.spliced a b ins).length := by
  have hlen := e.length_text
  simp only [spliced, List.length_append, List.length_take, List.length_drop]
  omega

theorem notMem_spliced (hfull : e.Full) (hins : 0 ∉ ins) (a b : ℕ) : 0 ∉ e.spliced a b ins := by
  have htext := (notMem_text_iff e).mpr hfull
  rw [spliced]
  intro hmem
  rcases List.mem_append.mp hmem with hmem | hmem
  · rcases List.mem_append.mp hmem with hmem | hmem
    · exact htext (List.mem_of_mem_take hmem)
    · exact hins (List.mem_of_mem_take hmem)
  · exact htext (List.mem_of_mem_drop (List.mem_of_mem_take hmem))

theorem store_apply (m : Bytes) {l : Str} (hl : 0 ∉ l) (q : ℕ) :
    store m l q = if q < l.length then l.getD q 0 else if q = l.length then 0 else m q := by
  have hall : l.takeWhile (· ≠ 0) = l := by
    rw [List.takeWhile_eq_self_iff]
    exact fun c hc => decide_eq_true fun h0 => hl (h0 ▸ hc)
  rw [store, hall]

theorem full_splice (hfull : e.Full) (hins : 0 ∉ ins) (a b : ℕ) : (e.splice a b ins).Full := by
  have hl := notMem_spliced hfull hins a b
  intro q hq
  have hq : q < (e.spliced a b ins).length := hq
  show store e.line (e.spliced a b ins) q ≠ 0
  rw [store_apply _ hl, if_pos hq, List.getD_eq_getElem _ _ hq]
  exact fun h0 => hl (h0 ▸ List.getElem_mem hq)

/-- **The cursor after a text was spliced** is in the line if the text was not cut. -/
theorem bounded_splice_iff (h : e.Bounded) (hfull : e.Full) (ha : a ≤ e.n)
    (hins : 0 ∉ ins) (b : ℕ) :
    (e.splice a b ins).Bounded ↔ a + ins.length ≤ kLineMax := by
  have hle := length_spliced_le h.n_le a b ins
  constructor
  · exact fun hb => (show a + ins.length ≤ (e.spliced a b ins).length from hb.pos_le).trans hle
  · refine fun hfits => ⟨le_length_spliced ha b hfits, hle, ?_⟩
    show store e.line (e.spliced a b ins) (e.spliced a b ins).length = 0
    rw [store_apply _ (notMem_spliced hfull hins a b), if_neg (lt_irrefl _), if_pos rfl]

end Editor

/-! ## What is completed -/

/-- No name has a zero in it. -/
def Found.Proper (f : Found) : Prop := ∀ name ∈ f.names, 0 ∉ name

theorem Found.Proper.scanDir {f : Found} (h : f.Proper) (word : Str) (es : List Dirent) :
    (scanDir word es f).Proper := by
  induction es generalizing f with
  | nil => exact h
  | cons d es ih =>
    rw [Sh.scanDir]
    dsimp only
    split_ifs
    · exact h
    · exact ih h
    · refine ih fun name hname => ?_
      rcases List.mem_append.mp hname with hname | hname
      · exact h name hname
      · rw [List.mem_singleton.mp hname]
        exact fun h0 => d.proper (List.mem_of_mem_take h0)
    · exact ih h

theorem Found.Proper.collect {f : Found} (h : f.Proper) (v : View) (word : Str)
    (fuel : ℕ) (p : Str) :
    (collect v word fuel p f).Proper := by
  induction fuel generalizing p f with
  | zero => exact h
  | succ fuel ih =>
    rw [Sh.collect]
    split
    · exact h
    split
    · exact ih h _
    · cases v.dir (pathDir p) with
      | none => exact ih h _
      | some es => exact ih (h.scanDir word es) _

theorem proper_commands (v : View) (word : Str) : (commands v word).Proper := by
  have hnone : Found.Proper ⟨[], 0⟩ := nofun
  exact hnone.collect v word _ _

theorem completeCommand_splice {fw : ℕ} (h : completeCommand v e fw = .splice a b ins) :
    a = 0 ∧ 0 ∉ ins := by
  have hproper := proper_commands v (e.text.take fw)
  rw [completeCommand] at h
  generalize commands v (e.text.take fw) = f at h hproper
  cases hn : f.names with
  | nil =>
    rw [hn] at h
    exact Completion.noConfusion h
  | cons first more =>
    simp only [hn] at h
    split_ifs at h
    obtain ⟨rfl, -, rfl⟩ := Completion.splice.inj h
    exact ⟨rfl, fun h0 => hproper first (by rw [hn]; exact List.mem_cons_self)
      (List.mem_of_mem_take h0)⟩

theorem completePath_splice {t c : ℕ} (hfull : e.Full)
    (h : completePath v e t c = .splice a b ins) :
    a = t ∧ 0 ∉ ins := by
  have htext := (Editor.notMem_text_iff e).mpr hfull
  have hdir : 0 ∉ globDir ((e.text.take c).drop t) := fun h0 =>
    htext (List.mem_of_mem_take (List.mem_of_mem_drop ((List.rdropWhile_prefix _ _).subset h0)))
  rw [completePath] at h
  split at h
  · exact absurd h nofun
  split at h
  · exact absurd h nofun
  split at h
  · exact absurd h nofun
  · next d _ =>
    obtain ⟨rfl, -, rfl⟩ := Completion.splice.inj h
    refine ⟨rfl, fun h0 => ?_⟩
    rcases List.mem_append.mp (List.mem_of_mem_take h0) with h0 | h0
    · exact hdir h0
    · exact d.proper (List.mem_of_mem_take h0)
  · exact absurd h nofun

theorem wordBegin_le (e : Editor) : wordBegin e ≤ e.n := by
  have h := (List.rdropWhile_prefix (· ≠ blank) (e.text.take e.pos)).length_le
  rw [List.length_take, e.length_text] at h
  exact h.trans (Nat.min_le_right _ _)

/-- What the tab key splices into the line. -/
theorem tabComplete_splice (hfull : e.Full) (h : tabComplete v e = .splice a b ins) :
    a ≤ e.n ∧ 0 ∉ ins := by
  rw [tabComplete] at h
  split_ifs at h
  · obtain ⟨rfl, hins⟩ := completeCommand_splice h
    exact ⟨Nat.zero_le _, hins⟩
  · obtain ⟨rfl, hins⟩ := completePath_splice hfull h
    exact ⟨wordBegin_le e, hins⟩

/-! ## Runs -/

namespace Session

/-- What each key keeps. -/
structure Inv (s : Session) : Prop where
  /-- The cursor and the line are in their bounds. -/
  bounded : s.ed.Bounded
  /-- There is no null in the line. -/
  full : s.ed.Full

theorem bounded_histUp (h : s.Inv) : s.histUp.Inv := by
  rw [histUp]
  split
  · exact h
  · obtain ⟨hb, hf⟩ := Editor.bounded_lineSet s.ed (s.hist.getD s.browse [])
    split_ifs
    all_goals exact ⟨(Editor.bounded_lineSet _ _).1, (Editor.bounded_lineSet _ _).2⟩

theorem bounded_histDown (h : s.Inv) : s.histDown.Inv := by
  rw [histDown]
  split
  · exact h
  · dsimp only
    split
    · exact ⟨(Editor.bounded_lineSet _ _).1, (Editor.bounded_lineSet _ _).2⟩
    · exact ⟨(Editor.bounded_lineSet _ _).1, (Editor.bounded_lineSet _ _).2⟩

theorem inv_begin (s : Session) : s.begin_.Inv :=
  ⟨(Editor.bounded_start _).1, (Editor.bounded_start _).2⟩

/-- The characters that are typed are not zero. -/
theorem op_ne_zero {k : Key} (h : k.op = some op) (c : UInt8) (hc : op = .insertChar c) :
    c ≠ 0 := by
  cases k with
  | char d =>
    rw [Key.op] at h
    split at h
    · next hprint =>
      rw [← Option.some.inj h] at hc
      rw [← Op.insertChar.inj hc]
      rintro rfl
      exact absurd hprint.1 (by decide)
    · exact absurd h nofun
  | _ =>
    rw [← Option.some.inj h] at hc
    exact absurd hc nofun

/-- **One key** keeps the cursor in the line if what is completed fits, and only then. -/
theorem Inv.step_iff (h : s.Inv) (k : LineKey) :
    ((s.step k).ed.Bounded ↔ s.Spares k) ∧ (s.step k).ed.Full := by
  have hof : ∀ {s' : Session}, s'.Inv → (s'.ed.Bounded ↔ True) ∧ s'.ed.Full :=
    fun hs => ⟨iff_of_true hs.bounded trivial, hs.full⟩
  cases k with
  | edit k =>
    cases hop : k.op with
    | none =>
      rw [step, hop]
      exact hof h
    | some op =>
      rw [step, hop]
      obtain ⟨hb, hf⟩ := h.bounded.step h.full (op_ne_zero hop)
      exact hof ⟨hb, hf⟩
  | up => exact hof (bounded_histUp h)
  | down => exact hof (bounded_histDown h)
  | tab v =>
    rw [step, complete, Spares]
    cases ht : tabComplete v s.ed with
    | splice a b ins =>
      obtain ⟨ha, hins⟩ := tabComplete_splice h.full ht
      refine ⟨(Editor.bounded_splice_iff h.bounded h.full ha hins b).trans ?_,
        Editor.full_splice h.full hins a b⟩
      refine ⟨fun hfits a' b' ins' he => ?_, fun hall => hall a b ins rfl⟩
      obtain ⟨rfl, rfl, rfl⟩ := Completion.splice.inj he
      exact hfits
    | none => exact ⟨iff_of_true h.bounded nofun, h.full⟩
    | list n names => exact ⟨iff_of_true h.bounded nofun, h.full⟩
  | enter => exact hof (inv_begin _)
  | interrupt => exact hof (inv_begin _)
  | other => exact hof h

theorem Inv.step (h : s.Inv) (hspares : s.Spares k) : (s.step k).Inv :=
  ⟨(h.step_iff k).1.mpr hspares, (h.step_iff k).2⟩

/-! ## Bytes -/

theorem mem_copied (h : q ∈ s.ed.copied) : q ≤ kLineMax :=
  (Nat.lt_succ_iff.mp (List.mem_range.mp h)).trans (Editor.length_lineString_le _)

theorem mem_redrawn (h : e.Bounded) (hq : q ∈ e.redrawn) : q ≤ kLineMax := by
  have hpos := h.pos_le
  have hn := h.n_le
  rcases List.mem_append.mp hq with hq | hq
  · exact (List.mem_range.mp hq).le.trans hn
  · exact (List.mem_range.mp hq).le.trans (hpos.trans hn)

/-- The bytes that an editing function reads and writes. -/
theorem mem_touched (h : e.Bounded) (hq : q ∈ e.touched op) : q ≤ kLineMax := by
  have hpos := h.pos_le
  have hn := h.n_le
  cases op with
  | insertChar c =>
    rw [Editor.touched] at hq
    split_ifs at hq with hroom
    · exact absurd hq List.not_mem_nil
    · simp only [List.mem_append, List.mem_range'_1, List.mem_cons,
        List.not_mem_nil, or_false] at hq
      omega
  | deleteBack =>
    rw [Editor.touched] at hq
    split_ifs at hq with h0
    · exact absurd hq List.not_mem_nil
    · simp only [List.mem_append, List.mem_range'_1, List.mem_cons,
        List.not_mem_nil, or_false] at hq
      omega
  | deleteForward =>
    rw [Editor.touched] at hq
    split_ifs at hq with hend
    · exact absurd hq List.not_mem_nil
    · simp only [List.mem_append, List.mem_range'_1, List.mem_cons,
        List.not_mem_nil, or_false] at hq
      omega
  | _ => exact absurd hq List.not_mem_nil

/-- **No key** makes `read_line` read or write outside of `g_line`, where the line is bounded before
and after. -/
theorem Inv.touched (h : s.Inv) (hafter : (s.step k).ed.Bounded) :
    ∀ q ∈ s.touched k ++ (s.step k).ed.redrawn, q ≤ kLineMax := by
  intro q hq
  rcases List.mem_append.mp hq with hq | hq
  swap
  · exact mem_redrawn hafter hq
  cases k with
  | edit k =>
    rw [Session.touched] at hq
    cases hop : k.op with
    | none =>
      rw [hop] at hq
      exact absurd hq List.not_mem_nil
    | some op =>
      rw [hop] at hq
      exact mem_touched h.bounded hq
  | up =>
    rcases List.mem_append.mp hq with hq | hq
    · exact mem_copied hq
    · exact Nat.lt_succ_iff.mp (List.mem_range.mp hq)
  | down => exact Nat.lt_succ_iff.mp (List.mem_range.mp hq)
  | tab v =>
    rcases List.mem_append.mp hq with hq | hq
    · exact (List.mem_range.mp hq).le.trans h.bounded.n_le
    · split at hq
      · next a b ins _ =>
        have hle := Editor.length_spliced_le h.bounded.n_le a b ins
        exact (Nat.lt_succ_iff.mp (List.mem_range.mp hq)).trans hle
      · exact absurd hq List.not_mem_nil
  | enter =>
    rcases List.mem_append.mp hq with hq | hq
    · exact mem_copied hq
    · rw [List.mem_singleton.mp hq]
      exact Nat.zero_le _
  | interrupt =>
    rw [List.mem_singleton.mp hq]
    exact Nat.zero_le _
  | other => exact absurd hq List.not_mem_nil

/-- **The line editor stays in bounds** if all that is completed fits in the line, and only then. -/
theorem Inv.stays_iff_careful (h : s.Inv) (ks : List LineKey) : s.Stays ks ↔ s.Careful ks := by
  induction ks generalizing s with
  | nil => exact iff_of_true h.bounded trivial
  | cons k ks ih =>
    constructor
    · rintro ⟨-, -, hrest⟩
      have hafter : (s.step k).ed.Bounded := by
        cases ks with
        | nil => exact hrest
        | cons k' ks => exact hrest.1
      have hspares := (h.step_iff k).1.mp hafter
      exact ⟨hspares, (ih (h.step hspares)).mp hrest⟩
    · rintro ⟨hspares, hrest⟩
      have hafter := h.step hspares
      exact ⟨h.bounded, h.touched hafter.bounded, (ih hafter).mpr hrest⟩

theorem inv_init (m : Bytes) : (init m).Inv :=
  ⟨(Editor.bounded_start m).1, (Editor.bounded_start m).2⟩

/-- **From the start of the shell on.** -/
theorem confined_iff (m : Bytes) (ks : List LineKey) : (init m).Stays ks ↔ (init m).Careful ks :=
  (inv_init m).stays_iff_careful ks

/-! ## A line that is too long -/

theorem Stays.last {ks : List LineKey} (h : s.Stays ks) : (ks.foldl Session.step s).ed.Bounded := by
  induction ks generalizing s with
  | nil => exact h
  | cons k ks ih => exact ih h.2.2

/-- Characters that are typed at the end of a line. -/
theorem typed (s : Session) (hpos : s.ed.pos = s.ed.n) (l : Str)
    (hprint : ∀ c ∈ l, 0x20 ≤ c ∧ c < 0x7F)
    (hlen : s.ed.n + l.length ≤ kLineMax) :
    ((l.map fun c => LineKey.edit (.char c)).foldl step s).ed.text = s.ed.text ++ l ∧
      ((l.map fun c => LineKey.edit (.char c)).foldl step s).ed.pos = s.ed.n + l.length := by
  induction l generalizing s with
  | nil => exact ⟨(List.append_nil _).symm, hpos⟩
  | cons c l ih =>
    rw [List.length_cons] at hlen
    have hroom : s.ed.n < kLineMax := by omega
    have hstep : s.step (.edit (.char c)) = { s with ed := s.ed.insertChar c } := by
      have hop : (Key.char c).op = some (.insertChar c) := if_pos (hprint c List.mem_cons_self)
      rw [step, hop]
      rfl
    have hn : (s.ed.insertChar c).n = s.ed.n + 1 := by
      rw [Editor.insertChar, if_neg (not_le.mpr hroom)]
    have hp : (s.ed.insertChar c).pos = s.ed.n + 1 := by
      rw [Editor.insertChar, if_neg (not_le.mpr hroom), hpos]
    have htext : (s.ed.insertChar c).text = s.ed.text ++ [c] := by
      rw [(Editor.text_insertChar hroom hpos.le).mpr (.inl hpos), hpos, ← s.ed.length_text,
        List.insertIdx_length_self]
    have hrest := ih { s with ed := s.ed.insertChar c } (hp.trans hn.symm)
      (fun c hc => hprint c (List.mem_cons_of_mem _ hc)) (by simp only [hn]; omega)
    rw [List.map_cons, List.foldl_cons, hstep]
    refine ⟨hrest.1.trans ?_, hrest.2.trans ?_⟩
    · simp only [htext, List.append_assoc, List.singleton_append]
    · simp only [hn, List.length_cons]
      omega

/-- A word of one letter at the end of a line of 252 characters. -/
def farWord : Str := 97 :: List.replicate 250 32 ++ [98]

/-- A directory with a name of ten letters. -/
def tenLetters : View := oneDir [List.replicate 10 98]

theorem printable_farWord : ∀ c ∈ farWord, 0x20 ≤ c ∧ c < 0x7F := by
  intro c hc
  rcases List.mem_append.mp hc with hc | hc
  · rcases List.mem_cons.mp hc with rfl | hc
    · decide
    · rw [List.eq_of_mem_replicate hc]
      decide
  · rw [List.mem_singleton.mp hc]
    decide

/-- The cursor is behind the line after the word was completed. -/
theorem cursor_behind :
    ¬(init fun _ => 0).Stays ((farWord.map fun c => LineKey.edit (.char c)) ++
      [.tab tenLetters]) := by
  intro h
  have hlen : farWord.length = 252 := by
    rw [farWord, List.length_append, List.length_cons, List.length_replicate, List.length_singleton]
  obtain ⟨htext, hpos⟩ :=
    typed (init fun _ => 0) rfl farWord printable_farWord (by rw [hlen]; decide)
  have hb := h.last
  rw [List.foldl_append] at hb
  generalize (farWord.map fun c => LineKey.edit (.char c)).foldl step (init fun _ => 0) =
    t at htext hpos hb
  have htext : t.ed.text = farWord := htext
  rw [hlen] at hpos
  have hpos : t.ed.pos = 252 := hpos
  have htab : tabComplete tenLetters t.ed = .splice 251 252 (List.replicate 10 98) := by
    simp only [tabComplete, completeCommand, completePath, wordEnd, wordBegin, htext, hpos]
    decide +kernel
  have hn : t.ed.n ≤ kLineMax := by
    rw [← t.ed.length_text, htext, hlen]
    decide
  have hb : (t.ed.splice 251 252 (List.replicate 10 98)).Bounded := by
    rw [List.foldl_cons, List.foldl_nil, step, complete, htab] at hb
    exact hb
  have hcursor : 251 + 10 ≤ (t.ed.spliced 251 252 (List.replicate 10 98)).length := hb.pos_le
  exact absurd (hcursor.trans (Editor.length_spliced_le hn _ _ _)) (by decide)

end Session

end Sh

end Aurisys
