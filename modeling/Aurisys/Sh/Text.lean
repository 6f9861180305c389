import Aurisys.Sh.Expand

/-!
# The text of a job

What `run_job` makes of stages, each of which has words and files for its input and output, with
blanks between them. A word is any text that `read_word` reads by itself, wherever a blank or an
operator is behind it. What it stands for can depend on what is behind it, as does the place where
it stands, and if there are wildcards in it, on how many words are in front of it, too.

## Main definitions

* `Word`, `Item`, `StageText`, `PipeText` — the text of a job
* `Intent` — what a stage should be
* `CommandFits`, `PipeText.Fits` — the job is not larger than a job can be
* `PipeText.Whole` — and its words do not disturb each other

## Main results

* `wordTurn_word`, `wordTurn_file`, `wordLoop_items`, `stageLoop_text` — how the parts are read
* `parse_pipeText`, `commands_iff` — how a job is read, and when it is the job that its text says
* `Word.bare`, `PipeText.letter` — the plainest words and jobs
-/

namespace Aurisys

namespace Sh

/-- What ends a word. -/
def Delimited (rest : Str) : Prop := ∀ c, rest.head? = some c → wordStart c = false

def Blanks (s : Str) : Prop := ∀ c ∈ s, isBlank c = true

/-- **A word**, and what it stands for if a text is behind it. -/
structure Word (o : World) where
  source : Str
  value : Str → Str
  head : ∃ c q, source = c :: q ∧ wordStart c = true
  reads : ∀ rest, Delimited rest → (value rest).length < kWordMax →
    ∃ r, readWord o.toOutside kWordMax 0 (source ++ rest) = some r ∧ r.p = rest ∧
    cstr r.text = value rest
  short : ∀ rest, hasGlob (value rest) = true → (value rest).length < kWordMax

/-- `<`, `>` and `>>`. -/
inductive Arrow
  | input
  | output
  | append

def Arrow.text : Arrow → Str
  | .input => [less]
  | .output => [greater]
  | .append => [greater, greater]

/-- The name of a file that fits. -/
abbrev FileWord (o : World) := { w : Word o // ∀ rest, (w.value rest).length < kWordMax }

/-- A word of a stage, or a file. -/
inductive Item (o : World)
  | word (pad : Str) (w : Word o)
  | file (pad : Str) (arrow : Arrow) (gap : Str) (w : FileWord o)

/-- **What a stage should be**: what its words stand for, and where its input and output go. -/
structure Intent where
  origins : List Origin
  input : Redir
  output : Redir

def Intent.argv (d : Intent) : List Str := d.origins.flatMap Origin.own

def Intent.command (d : Intent) : Command := ⟨d.argv, d.input, d.output⟩

variable {o : World} {pad rest p : Str} {c : UInt8} {mem : Mem} {k nstage : ℕ}
  {s : Parse} {d : Intent}

namespace Item

def text : Item o → Str
  | word pad w => pad ++ w.source
  | file pad arrow gap w => pad ++ (arrow.text ++ (gap ++ w.1.source))

def blanks : Item o → Prop
  | word pad _ => Blanks pad
  | file pad _ gap _ => Blanks pad ∧ Blanks gap

/-- There is a blank in front of a word that is not the first one. -/
def spaced : Item o → Prop
  | word pad _ => pad ≠ []
  | file .. => True

def isWord : Item o → Prop
  | word .. => True
  | file .. => False

/-- What it makes of a stage, if a text is behind it. -/
def apply (rest : Str) (d : Intent) : Item o → Intent
  | word _ w => { d with origins := d.origins ++ [originOf o rest (w.value rest) d.argv.length] }
  | file _ .input _ w => { d with input := ⟨less, w.1.value rest⟩ }
  | file _ .output _ w => { d with output := ⟨greater, w.1.value rest⟩ }
  | file _ .append _ w => { d with output := ⟨97, w.1.value rest⟩ }

end Item

def itemsText (items : List (Item o)) : Str := items.flatMap Item.text

/-- What they make of a stage, if a text is behind them. -/
def applyItems : List (Item o) → Str → Intent → Intent
  | [], _, d => d
  | i :: items, rest, d => applyItems items rest (i.apply (itemsText items ++ rest) d)

/-- **A stage**: words and files, with at least one word. -/
structure StageText (o : World) where
  items : List (Item o)
  tail : Str
  blanks : Blanks tail ∧ ∀ i ∈ items, i.blanks
  spaced : ∀ i ∈ items.tail, i.spaced
  named : ∃ i ∈ items, i.isWord

namespace StageText

def text (st : StageText o) : Str := itemsText st.items ++ st.tail

def intent (st : StageText o) (rest : Str) : Intent :=
  applyItems st.items (st.tail ++ rest) ⟨[], ⟨0, []⟩, ⟨0, []⟩⟩

end StageText

/-- **A job**: stages with pipes between them. -/
structure PipeText (o : World) where
  first : StageText o
  more : List (StageText o)

/-- The stages behind the first one, with the pipes. -/
def moreText (more : List (StageText o)) : Str := more.flatMap fun st => pipeSign :: st.text

/-- What the stages should be. -/
def intents : StageText o → List (StageText o) → Str → List Intent
  | st, [], rest => [st.intent rest]
  | st, st' :: more, rest =>
    st.intent (pipeSign :: (st'.text ++ moreText more) ++ rest) :: intents st' more rest

namespace PipeText

def text (j : PipeText o) : Str := j.first.text ++ moreText j.more

def intents (j : PipeText o) (rest : Str) : List Intent := Sh.intents j.first j.more rest

/-- The commands that its text says. -/
def commands (j : PipeText o) (rest : Str) : List Command := (j.intents rest).map Intent.command

/-- What its words match. -/
def found (j : PipeText o) (rest : Str) : List (List Str) :=
  (j.intents rest).flatMap fun d => d.origins.filterMap Origin.hits?

end PipeText

/-- A stage that is not larger than a stage can be. -/
structure CommandFits (c : Command) : Prop where
  argc : c.argv.length ≤ kMaxWord
  words : ∀ w ∈ c.argv, w.length < kWordMax

/-- A job that is not larger than a job can be. -/
structure PipeText.Fits (j : PipeText o) (rest : Str) : Prop where
  stages : j.more.length + 1 ≤ kMaxStage
  commands : ∀ d ∈ j.intents rest, CommandFits d.command

/-- A job that fits, and in which the words that match something do not disturb each other. -/
structure PipeText.Whole (j : PipeText o) (rest : Str) : Prop where
  fits : j.Fits rest
  agree : Overlay.Agree (j.found rest)

/-! ## One item -/

theorem skipBlanks_append (h : Blanks pad) (p : Str) : skipBlanks (pad ++ p) = skipBlanks p :=
  List.dropWhile_append_of_pos h

theorem Word.skipBlanks (w : Word o) (rest : Str) :
    Sh.skipBlanks (w.source ++ rest) = w.source ++ rest := by
  obtain ⟨c, q, hsource, hc⟩ := w.head
  rw [hsource, List.cons_append, skipBlanks_wordStart hc]

/-- Blanks in front of a word are skipped. -/
theorem readWord_blanks {o : Outside} {outsz depth : ℕ} (h : Blanks pad) (p : Str) :
    readWord o outsz depth (pad ++ p) = readWord o outsz depth p := by
  have hstart : Reader.start (pad ++ p) = Reader.start p := by
    rw [Reader.start, Reader.start, skipBlanks_append h]
  rw [readWord, readWord, hstart]

/-- The stage is what it should be. -/
structure Shows (cur : Stage) (d : Intent) : Prop where
  /-- It has as many arguments, -/
  argc : cur.argc = d.argv.length
  /-- from the same places, -/
  origins : cur.origins = d.origins
  /-- and the same redirections -/
  input : cur.input = d.input
  /-- of both kinds. -/
  output : cur.output = d.output

theorem wordStart_ne (h : wordStart c = true) : isOp c = false ∧ c ≠ greater ∧ c ≠ less ∧ c ≠ amp ∧
    isBlank c = false := by
  rw [wordStart, Bool.not_eq_true', Bool.or_eq_false_iff] at h
  obtain ⟨hblank, hop⟩ := h
  refine ⟨hop, ?_, ?_, ?_, hblank⟩
  · rintro rfl
    exact absurd hop (by decide)
  · rintro rfl
    exact absurd hop (by decide)
  · rintro rfl
    exact absurd hop (by decide)

theorem originOf_own_pos (o : World) (place w : Str) (slot : ℕ) :
    0 < (originOf o place w slot).own.length := by
  rw [originOf]
  split
  · exact Nat.one_pos
  · next h => exact List.length_pos_iff.mpr h

/-- A word that fits in its stage fits by itself. -/
theorem Word.value_lt (w : Word o) {slot : ℕ} (h : ∀ a ∈ (originOf o rest (w.value rest) slot).own,
      a.length < kWordMax) :
    (w.value rest).length < kWordMax := by
  cases hglob : hasGlob (w.value rest) with
  | true => exact w.short rest hglob
  | false =>
    have hnone : globHits o rest (w.value rest) slot = [] := by
      rw [globHits, hglob, if_neg Bool.false_ne_true]
    rw [originOf, if_pos hnone] at h
    exact h _ List.mem_cons_self

theorem argv_word (pad : Str) (w : Word o) (rest : Str) (d : Intent) :
    ((Item.word pad w).apply rest d).argv =
    d.argv ++ (originOf o rest (w.value rest) d.argv.length).own := by
  rw [Intent.argv, Item.apply, List.flatMap_append, List.flatMap_singleton]
  rfl

/-- **A word** is read into the next slot, or what it matches is. -/
theorem wordTurn_word (w : Word o) (hpad : Blanks pad) (hrest : Delimited rest)
    (hp : s.p = pad ++ (w.source ++ rest)) (hroom : s.cur.argc < kMaxWord)
    (hlen : (w.value rest).length < kWordMax) (hs : Shows s.cur d) :
    ∃ s', wordTurn o nstage 0 s = .ok (some s') ∧ s'.p = rest ∧
    Shows s'.cur ((Item.word pad w).apply rest d) := by
  obtain ⟨r, hr, hrp, htext⟩ := w.reads rest hrest hlen
  have hskip : Sh.skipBlanks s.p = w.source ++ rest := by
    rw [hp, skipBlanks_append hpad, w.skipBlanks]
  obtain ⟨c, q, hsource, hc⟩ := w.head
  obtain ⟨hop, hgreater, hless, hamp, -⟩ := wordStart_ne hc
  rw [hsource, List.cons_append] at hr hskip
  have hany := (readWord_wordStart hc hr).2
  have hredir : ¬(c = greater ∨ c = less) := not_or.mpr ⟨hgreater, hless⟩
  have hstop : ¬(isOp c = true ∨ c = amp) :=
    not_or.mpr ⟨by rw [hop]; exact Bool.false_ne_true, hamp⟩
  obtain ⟨horigins, hargc, hinput, houtput⟩ := takeWord_cur o nstage s hany
  rw [hrp, htext, hs.argc] at horigins hargc
  refine ⟨takeWord o nstage r s, ?_, (takeWord_p o nstage r s).trans hrp, ?_, ?_,
    hinput.trans hs.input,
    houtput.trans hs.output⟩
  · rw [wordTurn, hskip]
    dsimp only
    rw [if_neg hredir, if_neg hstop, if_neg (Nat.not_le.mpr hroom), hr]
  · rw [hargc, argv_word, List.length_append]
  · rw [horigins, hs.origins, Item.apply]

theorem appends_of_head (hgap : Blanks pad) (w : Word o) (rest : Str) :
    appends c (pad ++ (w.source ++ rest)) = false := by
  obtain ⟨a, q, hsource, ha⟩ := w.head
  obtain ⟨-, hgreater, -, -, -⟩ := wordStart_ne ha
  refine decide_eq_false fun h => ?_
  cases pad with
  | nil =>
    rw [hsource] at h
    exact hgreater (Option.some.inj h.2)
  | cons b pad =>
    have hb := hgap b List.mem_cons_self
    rw [Option.some.inj h.2] at hb
    exact absurd hb (by decide)

/-- **A file** is read into the stage. -/
theorem wordTurn_file (arrow : Arrow) {gap : Str} (w : FileWord o) (hpad : Blanks pad)
    (hgap : Blanks gap)
    (hrest : Delimited rest) (hp : s.p = pad ++ (arrow.text ++ (gap ++ (w.1.source ++ rest))))
    (hs : Shows s.cur d) :
    ∃ s', wordTurn o nstage 0 s = .ok (some s') ∧ s'.p = rest ∧
      Shows s'.cur ((Item.file pad arrow gap w).apply rest d) := by
  obtain ⟨r, hr, hrp, htext⟩ := w.1.reads rest hrest (w.2 rest)
  rw [← readWord_blanks hgap] at hr
  have happend := appends_of_head (c := greater) hgap w.1 rest
  have happend' := appends_of_head (c := less) hgap w.1 rest
  cases arrow with
  | input =>
    have hskip : Sh.skipBlanks s.p = less :: (gap ++ (w.1.source ++ rest)) := by
      rw [hp, skipBlanks_append hpad]
      exact skipBlanks_of_head (by decide) _
    refine ⟨⟨r.p, { s.cur with input := ⟨less, cstr r.text⟩ }, s.mem⟩, ?_, hrp,
      ⟨hs.argc, hs.origins, by rw [htext]; rfl, hs.output⟩⟩
    rw [wordTurn, hskip]
    dsimp only
    rw [if_pos (Or.inr rfl), redirect, happend', if_neg Bool.false_ne_true,
      if_neg Bool.false_ne_true, hr]
    rfl
  | output =>
    have hskip : Sh.skipBlanks s.p = greater :: (gap ++ (w.1.source ++ rest)) := by
      rw [hp, skipBlanks_append hpad]
      exact skipBlanks_of_head (by decide) _
    refine ⟨⟨r.p, { s.cur with output := ⟨greater, cstr r.text⟩ }, s.mem⟩, ?_, hrp,
      ⟨hs.argc, hs.origins, hs.input, by rw [htext]; rfl⟩⟩
    rw [wordTurn, hskip]
    dsimp only
    rw [if_pos (Or.inl rfl), redirect, happend, if_neg Bool.false_ne_true,
      if_neg Bool.false_ne_true, hr]
    rfl
  | append =>
    have hskip : Sh.skipBlanks s.p = greater :: greater :: (gap ++ (w.1.source ++ rest)) := by
      rw [hp, skipBlanks_append hpad]
      exact skipBlanks_of_head (by decide) _
    have htwo : appends greater (greater :: (gap ++ (w.1.source ++ rest))) = true := rfl
    refine ⟨⟨r.p, { s.cur with output := ⟨97, cstr r.text⟩ }, s.mem⟩, ?_, hrp,
      ⟨hs.argc, hs.origins, hs.input, by rw [htext]; rfl⟩⟩
    rw [wordTurn, hskip]
    dsimp only
    rw [if_pos (Or.inl rfl), redirect, htwo, if_pos rfl, if_pos rfl, List.tail_cons, hr]
    rfl

/-- **An item** is read into the stage. -/
theorem wordTurn_item (nstage : ℕ) (i : Item o) (hblanks : i.blanks) (hrest : Delimited rest)
    (hp : s.p = i.text ++ rest)
    (hfits : CommandFits (i.apply rest d).command) (hs : Shows s.cur d) :
    ∃ s', wordTurn o nstage 0 s = .ok (some s') ∧ s'.p = rest ∧ Shows s'.cur (i.apply rest d) := by
  cases i with
  | word pad w =>
    have hp : s.p = pad ++ (w.source ++ rest) := by rw [hp, Item.text, List.append_assoc]
    have hargv : ((Item.word pad w).apply rest d).command.argv =
        d.argv ++ (originOf o rest (w.value rest) d.argv.length).own := argv_word pad w rest d
    have hargc := hfits.argc
    rw [hargv, List.length_append, ← hs.argc] at hargc
    have hpos := originOf_own_pos o rest (w.value rest) s.cur.argc
    have hlen : (w.value rest).length < kWordMax :=
      w.value_lt fun a ha => hfits.words a (hargv ▸ List.mem_append_right _ ha)
    exact wordTurn_word w hblanks hrest hp (by omega) hlen hs
  | file pad arrow gap w =>
    have hp : s.p = pad ++ (arrow.text ++ (gap ++ (w.1.source ++ rest))) := by
      rw [hp, Item.text, List.append_assoc, List.append_assoc, List.append_assoc]
    exact wordTurn_file arrow w hblanks.1 hblanks.2 hrest hp hs

/-! ## A stage -/

/-- What ends a stage. -/
def StageStop (rest : Str) : Prop :=
  ∀ c, rest.head? = some c → c = pipeSign ∨ c = semicolon ∨ c = amp

variable {items : List (Item o)} {tail : Str}

theorem StageStop.isOp (h : StageStop rest) (hc : rest.head? = some c) :
    isOp c = true ∧ isBlank c = false ∧ c ≠ greater ∧ c ≠ less := by
  rcases h c hc with rfl | rfl | rfl <;> decide

theorem StageStop.skipBlanks (h : StageStop rest) : skipBlanks rest = rest := by
  cases rest with
  | nil => rfl
  | cons c q => exact skipBlanks_of_head (h.isOp rfl).2.1 q

theorem wordTurn_stop (h : StageStop rest) (hp : skipBlanks s.p = rest) :
    wordTurn o nstage 0 s = .ok none := by
  rw [wordTurn, hp]
  cases rest with
  | nil => rfl
  | cons c q =>
    obtain ⟨hop, -, hgreater, hless⟩ := h.isOp rfl
    dsimp only
    rw [if_neg (not_or.mpr ⟨hgreater, hless⟩), if_pos (Or.inl hop)]

theorem delimited_of_blank (h : isBlank c = true) (p : Str) : Delimited (c :: p) := by
  intro a ha
  obtain rfl := Option.some.inj ha
  rw [wordStart, h]
  rfl

theorem delimited_tail (htail : Blanks tail) (hrest : StageStop rest) :
    Delimited (tail ++ rest) := by
  cases tail with
  | nil =>
    intro c hc
    rw [wordStart, (hrest.isOp hc).1, Bool.or_true]
    rfl
  | cons b tail => exact delimited_of_blank (htail b List.mem_cons_self) _

/-- What is behind a word ends it. -/
theorem delimited_items (hblanks : ∀ i ∈ items, i.blanks) (hspaced : ∀ i ∈ items, i.spaced)
    (htail : Blanks tail)
    (hrest : StageStop rest) : Delimited (itemsText items ++ (tail ++ rest)) := by
  cases items with
  | nil =>
    have hend : Delimited (tail ++ rest) := delimited_tail htail hrest
    exact hend
  | cons i items =>
    have hb := hblanks i List.mem_cons_self
    cases i with
    | word pad w =>
      have hpad : pad ≠ [] := hspaced _ List.mem_cons_self
      cases pad with
      | nil => exact absurd rfl hpad
      | cons b pad => exact delimited_of_blank (hb b List.mem_cons_self) _
    | file pad arrow gap w =>
      cases pad with
      | nil =>
        intro c hc
        cases arrow <;> (obtain rfl := Option.some.inj hc; decide)
      | cons b pad => exact delimited_of_blank (hb.1 b List.mem_cons_self) _

theorem apply_argv (i : Item o) (rest : Str) (d : Intent) : d.argv <+: (i.apply rest d).argv := by
  cases i with
  | word pad w =>
    rw [argv_word]
    exact List.prefix_append _ _
  | file pad arrow => cases arrow <;> exact List.prefix_rfl

theorem applyItems_argv (items : List (Item o)) (rest : Str) (d : Intent) :
    d.argv <+: (applyItems items rest d).argv := by
  induction items generalizing d with
  | nil => exact List.prefix_rfl
  | cons i items ih => exact (apply_argv i _ d).trans (ih _)

/-- A stage that fits did so all along. -/
theorem CommandFits.of_argv {c c' : Command} (h : CommandFits c') (hp : c.argv <+: c'.argv) :
    CommandFits c :=
  ⟨le_trans hp.length_le h.argc, fun w hw => h.words w (hp.subset hw)⟩

/-- **The loop over the words** reads the items one by one. -/
theorem wordLoop_items (nstage : ℕ) (htail : Blanks tail) (hrest : StageStop rest)
    (hblanks : ∀ i ∈ items, i.blanks)
    (hspaced : ∀ i ∈ items.tail, i.spaced) (hp : s.p = itemsText items ++ (tail ++ rest))
    (hs : Shows s.cur d)
    (hfits : CommandFits (applyItems items (tail ++ rest) d).command) (hk : items.length < k) :
    ∃ s', wordLoop o nstage 0 k s = .ok s' ∧ skipBlanks s'.p = rest ∧
      Shows s'.cur (applyItems items (tail ++ rest) d) := by
  induction items generalizing k s d with
  | nil =>
    obtain ⟨k, rfl⟩ : ∃ n, k = n + 1 := ⟨k - 1, by omega⟩
    have hskip : skipBlanks s.p = rest := by
      rw [hp]
      exact (skipBlanks_append htail rest).trans hrest.skipBlanks
    exact ⟨s, by rw [wordLoop, wordTurn_stop hrest hskip], hskip, hs⟩
  | cons i items ih =>
    obtain ⟨k, rfl⟩ : ∃ n, k = n + 1 := ⟨k - 1, by omega⟩
    have hblanks' : ∀ i ∈ items, i.blanks := fun i hi => hblanks i (List.mem_cons_of_mem _ hi)
    have hspaced' : ∀ i ∈ items, i.spaced := hspaced
    have hp : s.p = i.text ++ (itemsText items ++ (tail ++ rest)) := by
      rw [hp, itemsText, List.flatMap_cons, List.append_assoc]
      rfl
    obtain ⟨s', hturn, hp', hs'⟩ := wordTurn_item nstage i (hblanks i List.mem_cons_self)
      (delimited_items hblanks' hspaced' htail hrest) hp
      (hfits.of_argv (applyItems_argv items _ _)) hs
    obtain ⟨s'', hloop, hrun⟩ :=
      ih hblanks' (fun i hi => hspaced' i (List.mem_of_mem_tail hi)) hp' hs' hfits
      (k := k) (by rw [List.length_cons] at hk; omega)
    exact ⟨s'', by rw [wordLoop, hturn]; exact hloop, hrun⟩

theorem length_itemsText (items : List (Item o)) : items.length ≤ (itemsText items).length := by
  induction items with
  | nil => exact le_rfl
  | cons i items ih =>
    have hpos : 0 < i.text.length := by
      cases i with
      | word pad w =>
        obtain ⟨c, q, hsource, -⟩ := w.head
        rw [Item.text, hsource, List.length_append, List.length_cons]
        omega
      | file pad arrow gap w =>
        have harrow : 0 < arrow.text.length := by cases arrow <;> decide
        rw [Item.text, List.length_append, List.length_append]
        omega
    rw [itemsText, List.flatMap_cons, List.length_cons, List.length_append]
    have : (items.flatMap Item.text).length = (itemsText items).length := rfl
    omega

/-- A stage has a word. -/
theorem argv_ne_nil (st : StageText o) (rest : Str) : (st.intent rest).argv ≠ [] := by
  have hsome : ∀ (items : List (Item o)) (d : Intent), (∃ i ∈ items, i.isWord) →
      (applyItems items (st.tail ++ rest) d).argv ≠ [] := by
    intro items
    induction items with
    | nil => exact fun _ ⟨_, h, _⟩ => absurd h List.not_mem_nil
    | cons i items ih =>
      rintro d ⟨a, ha, hword⟩
      rcases List.mem_cons.mp ha with rfl | ha
      · cases a with
        | word pad w =>
          have hle := (applyItems_argv items (st.tail ++ rest)
            ((Item.word pad w).apply (itemsText items ++ (st.tail ++ rest)) d)).length_le
          have hpos := originOf_own_pos o (itemsText items ++ (st.tail ++ rest))
            (w.value (itemsText items ++ (st.tail ++ rest))) d.argv.length
          rw [argv_word, List.length_append] at hle
          exact List.length_pos_iff.mp (by rw [applyItems]; omega)
        | file => exact absurd hword id
      · exact ih _ ⟨a, ha, hword⟩
  exact hsome st.items _ st.named

/-- A stage does not begin with an operator for what is between jobs or stages. -/
theorem StageText.head (st : StageText o) (p : Str) :
    ∃ c q, skipBlanks (st.text ++ p) = c :: q ∧ c ≠ pipeSign ∧ c ≠ semicolon ∧ c ≠ amp := by
  obtain ⟨items, tail, ⟨-, hblanks⟩, -, hnamed⟩ := st
  cases items with
  | nil =>
    obtain ⟨i, hi, -⟩ := hnamed
    exact absurd hi List.not_mem_nil
  | cons i items =>
    have hb := hblanks i List.mem_cons_self
    have htext : ∀ p, itemsText (i :: items) ++ p = i.text ++ (itemsText items ++ p) := fun p => by
      rw [itemsText, List.flatMap_cons, List.append_assoc]
      rfl
    rw [StageText.text]
    dsimp only
    rw [List.append_assoc, htext]
    cases i with
    | word pad w =>
      obtain ⟨c, q, hsource, hc⟩ := w.head
      obtain ⟨hop, -, -, hamp, -⟩ := wordStart_ne hc
      rw [Item.text, List.append_assoc, skipBlanks_append hb, hsource, List.cons_append,
        skipBlanks_wordStart hc]
      refine ⟨c, _, rfl, ?_, ?_, hamp⟩
      · rintro rfl
        exact absurd hop (by decide)
      · rintro rfl
        exact absurd hop (by decide)
    | file pad arrow gap w =>
      rw [Item.text, List.append_assoc, skipBlanks_append hb.1]
      cases arrow with
      | input => exact ⟨less, _, skipBlanks_of_head (by decide) _, by decide⟩
      | output => exact ⟨greater, _, skipBlanks_of_head (by decide) _, by decide⟩
      | append => exact ⟨greater, _, skipBlanks_of_head (by decide) _, by decide⟩

/-- Its first character is not one, either. -/
theorem StageText.head?_ne (st : StageText o) (p : Str) (hc : isBlank c = false)
    (hop : c = pipeSign ∨ c = semicolon ∨ c = amp) : (st.text ++ p).head? ≠ some c := by
  intro hhead
  obtain ⟨a, q, hskip, hpipe, hsemi, hamp⟩ := st.head p
  cases htext : st.text ++ p with
  | nil =>
    rw [htext] at hhead
    exact absurd hhead (by simp)
  | cons b r =>
    rw [htext] at hhead hskip
    obtain rfl := Option.some.inj hhead
    rw [skipBlanks_of_head hc] at hskip
    obtain rfl := (List.cons.inj hskip).1
    rcases hop with h | h | h
    · exact hpipe h
    · exact hsemi h
    · exact hamp h

/-- What ends a job. -/
structure JobStop (rest : Str) : Prop where
  stop : StageStop rest
  pipe : ¬(rest.head? = some pipeSign ∧ rest.tail.head? ≠ some pipeSign)

/-! ## A job -/

variable {more : List (StageText o)} {t : Stages}

/-- The words of a stage are read, with its files. -/
theorem wordLoop_stage (st : StageText o) (hstop : StageStop rest) (hp : t.p = st.text ++ rest)
    (hfits : CommandFits (st.intent rest).command) :
    ∃ w, wordLoop o t.stages.length 0 (t.p.length + 1) ⟨t.p, Stage.empty, t.mem⟩ = .ok w ∧
      skipBlanks w.p = rest ∧ Shows w.cur (st.intent rest) ∧ w.cur.argc ≠ 0 := by
  have hp : t.p = itemsText st.items ++ (st.tail ++ rest) := by
    rw [hp, StageText.text, List.append_assoc]
  have hlen : st.items.length < t.p.length + 1 := by
    have := length_itemsText st.items
    rw [hp, List.length_append]
    omega
  obtain ⟨w, hloop, hskip, hshows⟩ := wordLoop_items t.stages.length
    (s := ⟨t.p, Stage.empty, t.mem⟩) (d := ⟨[], ⟨0, []⟩, ⟨0, []⟩⟩) st.blanks.1 hstop
    st.blanks.2 st.spaced hp
    ⟨rfl, rfl, rfl, rfl⟩ hfits hlen
  refine ⟨w, hloop, hskip, hshows, ?_⟩
  have hne := List.length_pos_iff.mpr (argv_ne_nil st rest)
  rw [hshows.argc]
  exact hne.ne'

/-- **The loop over the stages** reads one after the other. -/
theorem stageLoop_text {st : StageText o} (hrest : JobStop rest)
    (hfits : ∀ d ∈ intents st more rest, CommandFits d.command)
    (hp : t.p = st.text ++ (moreText more ++ rest))
    (hmax : t.stages.length + (more.length + 1) ≤ kMaxStage) (hk : more.length < k) :
    ∃ t' new, stageLoop o 0 k t = .ok t' ∧ t'.p = rest ∧ t'.stages = t.stages ++ new ∧
      List.Forall₂ Shows new (intents st more rest) := by
  induction more generalizing k st t with
  | nil =>
    obtain ⟨k, rfl⟩ : ∃ n, k = n + 1 := ⟨k - 1, by omega⟩
    obtain ⟨w, hloop, hskip, hshows, hargc⟩ :=
      wordLoop_stage st hrest.stop hp (hfits _ List.mem_cons_self)
    refine ⟨⟨rest, t.stages ++ [w.cur], w.mem⟩, [w.cur], ?_, rfl, rfl, .cons hshows .nil⟩
    rw [stageLoop, hloop]
    dsimp only
    rw [if_neg hargc, hskip, if_neg hrest.pipe]
  | cons st' more ih =>
    obtain ⟨k, rfl⟩ : ∃ n, k = n + 1 := ⟨k - 1, by omega⟩
    have hpipe : StageStop (pipeSign :: (st'.text ++ moreText more) ++ rest) :=
      fun c hc => Or.inl (Option.some.inj hc).symm
    obtain ⟨w, hloop, hskip, hshows, hargc⟩ := wordLoop_stage st hpipe (by rw [hp]; rfl)
      (hfits _ List.mem_cons_self)
    have hnext : (st'.text ++ moreText more ++ rest).head? ≠ some pipeSign := by
      rw [List.append_assoc]
      exact st'.head?_ne _ (by decide) (Or.inl rfl)
    rw [List.length_cons] at hmax hk
    have hlen : (t.stages ++ [w.cur]).length = t.stages.length + 1 := by
      rw [List.length_append, List.length_singleton]
    obtain ⟨t', new, hrun, hp', hstages, hall⟩ := ih (k := k)
      (t := ⟨st'.text ++ moreText more ++ rest, t.stages ++ [w.cur], w.mem⟩)
      (fun c hc => hfits c (List.mem_cons_of_mem _ hc)) (List.append_assoc _ _ _)
      (by rw [hlen]; omega) (by omega)
    refine ⟨t', w.cur :: new, ?_, hp', by rw [hstages, List.append_assoc]; rfl, .cons hshows hall⟩
    rw [stageLoop, hloop]
    dsimp only
    rw [if_neg hargc, hskip, if_pos ⟨rfl, hnext⟩, if_neg (by rw [hlen]; omega)]
    exact hrun

theorem length_intents (j : PipeText o) (rest : Str) :
    (j.intents rest).length = j.more.length + 1 := by
  have hall : ∀ (st : StageText o) (more : List (StageText o)), (intents st more rest).length =
      more.length + 1 := by
    intro st more
    induction more generalizing st with
    | nil => rfl
    | cons st' more ih => exact congrArg (· + 1) (ih st')
  exact hall j.first j.more

theorem stages_ne_nil {l : List Stage} {j : PipeText o}
    (h : List.Forall₂ Shows l (j.intents rest)) : l ≠ [] := by
  have hlen := h.length_eq
  rw [length_intents] at hlen
  exact List.length_pos_iff.mp (by omega)

/-- **A job is read** up to what ends it, and each of its stages is what it should be. -/
theorem parse_pipeText (j : PipeText o) (hrest : JobStop rest) (hfits : j.Fits rest) (mem : Mem) :
    ∃ t, stageLoop o 0 (kMaxStage + 1) ⟨j.text ++ rest, [], mem⟩ = .ok t ∧ t.p = rest ∧
      List.Forall₂ Shows t.stages (j.intents rest) := by
  have hstages := hfits.stages
  obtain ⟨t, new, hloop, hp, hnew, hall⟩ := stageLoop_text (k := kMaxStage + 1)
    (t := ⟨j.text ++ rest, [], mem⟩) hrest hfits.commands (List.append_assoc _ _ _)
    (by rw [List.length_nil]; omega) (by omega)
  obtain rfl : new = t.stages := hnew.symm
  exact ⟨t, hloop, hp, hall⟩

theorem commands_ne_nil (j : PipeText o) (rest : Str) : j.commands rest ≠ [] := by
  obtain ⟨st, more⟩ := j
  cases more <;> exact List.cons_ne_nil _ _

/-- The words of the stages have matched what they should. -/
theorem expansions_of_shows {l : List Stage} {ds : List Intent} (h : List.Forall₂ Shows l ds) :
    expansions l = ds.flatMap fun d => d.origins.filterMap Origin.hits? := by
  induction h with
  | nil => rfl
  | @cons st d l ds hs _ ih =>
    rw [expansions, List.flatMap_cons, List.flatMap_cons, hs.origins]
    exact congrArg _ ih

/-- **When the stages of a job are started with the words that its text says**: those that match
something do not disturb each other. -/
theorem commands_iff {j : PipeText o} {line : Str} {job : Job}
    (hjob : parseJob o 0 line mem = .ok job)
    (hshows : List.Forall₂ Shows job.stages (j.intents rest)) :
    ((job.stages.map fun st => (st.command job.mem).argv) = (j.commands rest).map Command.argv ↔
      Overlay.Agree (j.found rest)) ∧
    (Overlay.Agree (j.found rest) → (job.stages.map fun st => st.command job.mem) =
      j.commands rest) := by
  have heach : ∀ (l : List Stage) (ds : List Intent), List.Forall₂ Shows l ds →
      ((l.map fun st => (st.command job.mem).argv) = ds.map Intent.argv ↔
        ∀ st ∈ l, (st.command job.mem).argv = st.origins.flatMap Origin.own) ∧
      ((∀ st ∈ l, (st.command job.mem).argv = st.origins.flatMap Origin.own) →
        (l.map fun st => st.command job.mem) = ds.map Intent.command) := by
    intro l ds h
    induction h with
    | nil => exact ⟨iff_of_true rfl fun _ hst => absurd hst List.not_mem_nil, fun _ => rfl⟩
    | @cons st d l ds hs _ ih =>
      have hargv : d.argv = st.origins.flatMap Origin.own := by rw [Intent.argv, hs.origins]
      rw [List.map_cons, List.map_cons, List.map_cons, List.map_cons,
        List.cons_eq_cons, hargv, ih.1,
        List.forall_mem_cons]
      refine ⟨Iff.rfl, fun hall => ?_⟩
      rw [ih.2 hall.2, Intent.command, hargv, ← hall.1, ← hs.input, ← hs.output]
      rfl
  have hagree := argv_iff o 0 line mem job hjob
  have hfound : expansions job.stages = j.found rest := expansions_of_shows hshows
  rw [hfound] at hagree
  obtain ⟨hiff, heq⟩ := heach _ _ hshows
  have hargv : (j.commands rest).map Command.argv = (j.intents rest).map Intent.argv := List.map_map
  rw [hargv, hiff, hagree]
  exact ⟨Iff.rfl, fun h => heq (hagree.mpr h)⟩

/-! ## The plainest words -/

/-- A character that stands for itself, wherever it is in a word. -/
def ordinary (c : UInt8) : Bool :=
  wordStart c && !(c = quote || c = dquote || c = dollar || c = backslash || c =
    star || c = question ||
    c = bracketOpen || c = 0)

theorem ordinary_ne (h : ordinary c = true) : wordStart c = true ∧ c ≠ quote ∧
    c ≠ dquote ∧ c ≠ dollar ∧
    c ≠ backslash ∧ c ≠ star ∧ c ≠ question ∧ c ≠ bracketOpen ∧ c ≠ 0 := by
  simpa [ordinary, and_assoc] using h

/-- Such characters are put in the word one by one. -/
theorem reaches_ordinary (o : Outside) (depth : ℕ) {outsz : ℕ} {l : Str} {r : Reader}
    (hl : ∀ c ∈ l, ordinary c = true)
    (hmode : r.mode = .plain) (hp : r.p = l ++ rest) (hroom : r.text.length + l.length < outsz) :
    ∃ b, StateTransition.Reaches (step o outsz depth) r b ∧ b.mode = .plain ∧ b.p = rest ∧
    b.text = r.text ++ l := by
  induction l generalizing r with
  | nil => exact ⟨r, .refl, hmode, hp, (List.append_nil _).symm⟩
  | cons c l ih =>
    obtain ⟨hstart, hquote, hdquote, hdollar, hslash, -⟩ := ordinary_ne (hl c List.mem_cons_self)
    rw [List.length_cons] at hroom
    obtain ⟨p, text, any, mode, writes⟩ := r
    obtain rfl : mode = .plain := hmode
    obtain rfl : p = c :: (l ++ rest) := hp
    have hroom : text.length + (l.length + 1) < outsz := hroom
    have hgo : ¬(isBlank c || isOp c) = true := by
      intro hstop
      rw [wordStart, hstop] at hstart
      exact absurd hstart (by decide)
    have hlit : literal c (l ++ rest) = (c, l ++ rest) := by
      cases l ++ rest with
      | nil => rfl
      | cons a p => rw [literal, if_neg hslash]
    have hstep : step o outsz depth ⟨c :: (l ++ rest), text, any, .plain, writes⟩ =
        some (Reader.put ⟨c :: (l ++ rest), text, true, .plain, writes⟩ c (l ++ rest)) := by
      simp only [step]
      have hput : text.length < outsz - 1 := by omega
      rw [if_neg hgo, if_neg hquote, if_neg hdquote, if_neg hdollar, if_pos hput, hlit]
    obtain ⟨b, hb, hbmode, hbp, hbtext⟩ := ih (fun a ha => hl a (List.mem_cons_of_mem _ ha))
      (r := Reader.put ⟨c :: (l ++ rest), text, true, .plain, writes⟩ c (l ++ rest)) rfl rfl
      (by
        change (text ++ [c]).length + l.length < outsz; rw [List.length_append,
        List.length_singleton]; omega)
    exact ⟨b, .head hstep hb, hbmode, hbp, by rw [hbtext, Reader.put, List.append_assoc]; rfl⟩

/-- There is no wildcard among them. -/
theorem hasGlob_ordinary {l : Str} (hl : ∀ c ∈ l, ordinary c = true) : hasGlob l = false := by
  induction l with
  | nil => rfl
  | cons c l ih =>
    obtain ⟨-, -, -, -, -, hstar, hquestion, hbracket, -⟩ := ordinary_ne (hl c List.mem_cons_self)
    rw [hasGlob, ih fun a ha => hl a (List.mem_cons_of_mem _ ha), decide_eq_false hstar,
      decide_eq_false hquestion,
      decide_eq_false hbracket]
    rfl

/-- **A word of such characters** stands for itself. -/
def Word.bare (o : World) (l : Str) (hne : l ≠ []) (hl : ∀ c ∈ l, ordinary c = true) : Word o where
  source := l
  value := fun _ => l
  head := by
    cases l with
    | nil => exact absurd rfl hne
    | cons c q => exact ⟨c, q, rfl, (ordinary_ne (hl c List.mem_cons_self)).1⟩
  reads := by
    intro rest hrest hlen
    have hstart : Reader.start (l ++ rest) = ⟨l ++ rest, [], false, .plain, []⟩ := by
      cases l with
      | nil => exact absurd rfl hne
      | cons c q =>
        rw [Reader.start, List.cons_append,
          skipBlanks_wordStart (ordinary_ne (hl c List.mem_cons_self)).1]
    obtain ⟨b, hb, hmode, hp, htext⟩ := reaches_ordinary o.toOutside 0
      (r := ⟨l ++ rest, [], false, .plain, []⟩) hl rfl rfl
      (by rw [List.length_nil, Nat.zero_add]; exact hlen)
    have hend : step o.toOutside kWordMax 0 b = none := by
      obtain ⟨p, text, any, mode, writes⟩ := b
      obtain rfl : mode = .plain := hmode
      obtain rfl : p = rest := hp
      cases p with
      | nil => rfl
      | cons c q =>
        have hstop : (isBlank c || isOp c) = true := by
          have := hrest c rfl
          rwa [wordStart, Bool.not_eq_false'] at this
        simp only [step]
        rw [if_pos hstop]
    refine ⟨b.finish, readWord_of_reaches (by rw [hstart]; exact hb) hend, hp, ?_⟩
    have hzero : ∀ c ∈ l, decide (c ≠ 0) = true :=
      fun c hc => decide_eq_true (ordinary_ne (hl c hc)).2.2.2.2.2.2.2.2
    change cstr b.text = l
    rw [htext, List.nil_append, cstr, List.takeWhile_eq_self_iff.mpr hzero]
  short := fun _ hglob => absurd ((hasGlob_ordinary hl).symm.trans hglob) Bool.false_ne_true

/-- A job that is one word. -/
def PipeText.single (w : Word o) : PipeText o where
  first :=
    { items := [.word [] w]
      tail := []
      blanks := ⟨fun _ hc => absurd hc List.not_mem_nil, fun i hi => by
        obtain rfl := List.mem_singleton.mp hi
        exact fun _ hc => absurd hc List.not_mem_nil⟩
      spaced := fun _ hi => absurd hi List.not_mem_nil
      named := ⟨_, List.mem_cons_self, trivial⟩ }
  more := []

/-- A job that is one letter. -/
def PipeText.letter (o : World) (c : UInt8) (hc : ordinary c = true) : PipeText o :=
  PipeText.single (Word.bare o [c] (List.cons_ne_nil _ _) fun a ha => by
    rw [List.mem_singleton.mp ha]
    exact hc)

theorem PipeText.letter_fits (hc : ordinary c = true) (rest : Str) :
    (PipeText.letter o c hc).Fits rest := by
  have hone : 1 ≤ kMaxStage ∧ 1 ≤ kMaxWord ∧ 1 < kWordMax := by decide
  refine ⟨hone.1, fun d hd => ?_⟩
  obtain rfl := List.mem_singleton.mp hd
  have hglob : hasGlob [c] = false := hasGlob_ordinary fun a ha => by
    rw [List.mem_singleton.mp ha]
    exact hc
  have hnone : globHits o rest [c] 0 = [] := by rw [globHits, hglob, if_neg Bool.false_ne_true]
  have hargv : ((PipeText.letter o c hc).first.intent rest).command.argv = [[c]] := by
    change (originOf o rest [c] 0).own ++ [] = _
    rw [originOf, if_pos hnone]
    rfl
  refine ⟨by rw [hargv]; exact hone.2.1, fun a ha => ?_⟩
  rw [hargv] at ha
  rw [List.mem_singleton.mp ha]
  exact hone.2.2

end Sh

end Aurisys
