import Aurisys.Kernel.Reader

/-!
# Line editing

What the user of a terminal in canonical mode expects: typed bytes add up to a line, an erase
character takes back the last byte of the line that is being typed, and a newline completes it. The
lines that readers get are those, whenever they read.

The code erases in the buffer, and a reader that waits has taken the line out of it as far as it has
been typed. The buffer does not know lines either, so an erase character after a newline that nobody
has read yet takes the newline. And an erase character on a tick can take the byte that a reader is
just copying. `tty_lines` says when nothing of this happens.

## Main definitions

* `Edit`, `edit` — what is typed as lines
* `TtyState.Erasable` — what an erase character should find
* `LineTyping` — the bytes in question
* `EditKeeps` — a step at which editing works

## Main results

* `tty_lines`
-/

namespace Aurisys

open TtyState

/-- The lines that have been typed, each with its newline, and the one being typed. -/
structure Edit where
  lines : List (List UInt8)
  cur : List UInt8
deriving DecidableEq

namespace Edit

/-- A byte is typed. -/
def type (e : Edit) (c : UInt8) : Edit :=
  if c = del then { e with cur := e.cur.dropLast }
  else if Tty.crnl c = nl then ⟨e.lines ++ [e.cur ++ [nl]], []⟩
  else { e with cur := e.cur ++ [c] }

/-- Each line ends where its newline is, and the last one has none yet. -/
structure WF (e : Edit) : Prop where
  lines : ∀ l ∈ e.lines, ∃ b, l = b ++ [nl] ∧ nl ∉ b
  cur : nl ∉ e.cur

/-- All of it, as it was typed. -/
def text (e : Edit) : List UInt8 := e.lines.flatten ++ e.cur

end Edit

/-- What has been typed, as lines. -/
def edit (s : List UInt8) : Edit := s.foldl Edit.type ⟨[], []⟩

theorem edit_concat (s : List UInt8) (c : UInt8) : edit (s ++ [c]) = (edit s).type c :=
  List.foldl_concat ..

/-- The lines that readers got. A call that must not wait may get none. -/
def TtyState.delivered (σ : TtyState) : List (List UInt8) := σ.returned.filter (· ≠ [])

/-- No newline is left, in the buffer or in what a call has. -/
def TtyState.ReadOut (σ : TtyState) : Prop := nl ∉ σ.settled ∧ ∀ p, nl ∉ σ.held p

/-- What is in the buffer and is not being taken. -/
def TtyState.untaken (σ : TtyState) : List UInt8 :=
  match σ.pc with
  | some (_, .took _) => σ.tty.contents.tail
  | _ => σ.tty.contents

/-- An erase character finds part of the line that is being typed in the buffer, or there is no such
line. -/
def TtyState.Erasable (σ : TtyState) : Prop :=
  (σ.untaken ≠ [] ∧ σ.tty.contents.getLast? ≠ some nl) ∨
    (σ.tty.contents = [] ∧ ∀ p, σ.held p = [])

instance (σ : TtyState) : Decidable σ.Erasable := inferInstanceAs (Decidable (_ ∨ _))

/-- The bytes in question, and no line is longer than the buffer it is read into: one that has no
newline yet leaves room for it. -/
def LineTyping (σ : TtyState) : TtyOp → Prop
  | .tick _ c | .feed _ c => c = del ∨ (σ.tty.Ordinary c ∧ σ.tty.contents.length < 255)
  | .go => ∀ p, σ.pc = some (p, .scan) → ∀ c ∈ σ.calls p, nl ∈ c.out ∨ c.out.length < c.len
  | _ => True

/-- A step at which editing works. It is one of `ReadKeeps`. An erase character finds what it
should; a call that must not wait does not have part of a line when it has looked through its bytes;
and no byte comes between `tty_drain` and `tty_key(true)`. -/
def EditKeeps (σ : TtyState) : TtyOp → Prop
  | .tick cur c => ReadKeeps σ (.tick cur c) ∧ (c = del → σ.Erasable)
  | .feed _ c => c = del → σ.Erasable
  | .go => ReadKeeps σ .go ∧ ∀ p, σ.pc = some (p, .scan) → ∀ c ∈ σ.calls p, σ.tty.nonblock →
      nl ∈ c.out ∨ c.out = []
  | .key o => o = none
  | _ => True

instance (σ : TtyState) : DecidablePred (LineTyping σ)
  | .tick .. | .feed .. => inferInstanceAs (Decidable (_ ∨ _))
  | .go => inferInstanceAs (Decidable (∀ _, _ → ∀ c ∈ σ.calls _, _ ∨ _))
  | .call .. | .wake _ | .key _ => inferInstanceAs (Decidable True)

instance (σ : TtyState) : DecidablePred (EditKeeps σ)
  | .tick cur c => inferInstanceAs (Decidable (ReadKeeps σ (.tick cur c) ∧ _))
  | .feed .. => inferInstanceAs (Decidable (_ → _))
  | .go => inferInstanceAs (Decidable (ReadKeeps σ .go ∧ ∀ _, _ → ∀ c ∈ σ.calls _, _ → _ ∨ _))
  | .key _ => inferInstanceAs (Decidable (_ = _))
  | .call .. | .wake _ => inferInstanceAs (Decidable True)

namespace Edit

variable {e : Edit}

theorem WF.type (h : e.WF) (c : UInt8) : (e.type c).WF := by
  rw [Edit.type]
  split
  · exact ⟨h.lines, fun hm => h.cur (List.mem_of_mem_dropLast hm)⟩
  · split
    · refine ⟨fun l hl => ?_, List.not_mem_nil⟩
      obtain hl | hl := List.mem_append.mp hl
      · exact h.lines l hl
      · exact ⟨e.cur, List.mem_singleton.mp hl, h.cur⟩
    · next hnl =>
      refine ⟨h.lines, fun hm => ?_⟩
      obtain hm | hm := List.mem_append.mp hm
      · exact h.cur hm
      · rw [← List.mem_singleton.mp hm] at hnl
        exact hnl rfl

/-- Typing a byte that erases nothing. -/
theorem text_type {c : UInt8} (hc : c ≠ del) : (e.type c).text = e.text ++ [Tty.crnl c] := by
  rw [Edit.type, if_neg hc]
  split
  · next hnl =>
    simp [text, hnl]
  · next hnl =>
    have hcr : Tty.crnl c = c := by
      rw [Tty.crnl] at hnl ⊢
      exact if_neg fun hcr => hnl (if_pos hcr)
    simp [text, hcr]

/-- Where the text does not end with a newline, a line is being typed. -/
theorem WF.cur_ne_nil (h : e.WF) (hne : e.text ≠ []) (hlast : e.text.getLast? ≠ some nl) :
    e.cur ≠ [] := by
  intro hcur
  rw [text, hcur, List.append_nil] at hne hlast
  have hlines : e.lines ≠ [] := fun hnil => hne (by rw [hnil]; rfl)
  obtain ⟨ls, l, hls⟩ := List.eq_nil_or_concat e.lines |>.resolve_left hlines
  obtain ⟨b, hb, -⟩ := h.lines l (by rw [hls]; simp)
  rw [hls, hb] at hlast
  exact hlast (by simp)

theorem split_first {b b' r r' : List UInt8} (hb : nl ∉ b) (hb' : nl ∉ b')
    (h : b ++ nl :: r = b' ++ nl :: r') : b = b' ∧ r = r' := by
  induction b generalizing b' with
  | nil =>
    cases b' with
    | nil => exact ⟨rfl, (List.cons.inj h).2⟩
    | cons x b' => exact absurd (List.mem_cons.mpr (.inl (List.cons.inj h).1)) hb'
  | cons x b ih =>
    cases b' with
    | nil => exact absurd (List.mem_cons.mpr (.inl (List.cons.inj h).1.symm)) hb
    | cons y b' =>
      obtain ⟨rfl, htail⟩ := List.cons.inj h
      obtain ⟨rfl, hr⟩ := ih (fun hm => hb (List.mem_cons_of_mem _ hm))
        (fun hm => hb' (List.mem_cons_of_mem _ hm)) htail
      exact ⟨rfl, hr⟩

/-- **The first line**: text up to its first newline. -/
theorem WF.first_line (h : e.WF) {b rest : List UInt8} (hb : nl ∉ b)
    (htext : e.text = b ++ nl :: rest) :
    ∃ ls, e.lines = (b ++ [nl]) :: ls ∧ rest = ls.flatten ++ e.cur := by
  cases hl : e.lines with
  | nil =>
    rw [text, hl] at htext
    exact absurd (by rw [show e.cur = b ++ nl :: rest from htext]; simp) h.cur
  | cons l ls =>
    obtain ⟨b', rfl, hb'⟩ := h.lines l (by rw [hl]; simp)
    have htext' : b' ++ nl :: (ls.flatten ++ e.cur) = b ++ nl :: rest := by
      rw [← htext, text, hl]
      simp
    obtain ⟨rfl, hrest⟩ := split_first hb' hb htext'
    exact ⟨ls, rfl, hrest.symm⟩

end Edit

namespace TtyState

variable {σ σ' : TtyState} {p : Fin kMaxTask} {op : TtyOp}

/-- What has been typed is the lines `ds`, and then what is in the buffers, as lines. -/
def Edited (σ : TtyState) (fed : List UInt8) (ds : List (List UInt8)) : Prop :=
  σ.Stream fun s => ∃ e : Edit, e.WF ∧ e.text = s ∧ edit fed = ⟨ds ++ e.lines, e.cur⟩

/-- The lines delivered come first. -/
structure Edits (σ : TtyState) : Prop where
  /-- The terminal is in order. -/
  steady : σ.Steady
  /-- All that was typed was fed. -/
  typed : σ.typed = σ.fed
  /-- The lines delivered come first. -/
  stream : σ.Edited σ.fed σ.delivered

theorem Edits.start {t : Tty} (h : t.Idle) : (TtyState.start t).Edits := by
  refine ⟨.start h, rfl, 0, fun _ _ => rfl, ⟨[], []⟩, ⟨?_, ?_⟩, h.empty.symm, rfl⟩
  · exact fun _ hl => absurd hl List.not_mem_nil
  · exact List.not_mem_nil

theorem type_append (ds : List (List UInt8)) (e : Edit) (c : UInt8) :
    Edit.type ⟨ds ++ e.lines, e.cur⟩ c = ⟨ds ++ (e.type c).lines, (e.type c).cur⟩ := by
  rw [Edit.type, Edit.type]
  split
  · rfl
  · split
    · rw [List.append_assoc]
    · rfl

/-- **A byte is typed.** -/
theorem Edited.typed {fed : List UInt8} {ds : List (List UInt8)} {b : UInt8} (h : σ.Edited fed ds)
    (hb : b ≠ del) (hheld : σ'.held = σ.held) (hsettled : σ'.settled = σ.settled ++ [Tty.crnl b]) :
    σ'.Edited (fed ++ [b]) ds := by
  obtain ⟨p, hsole, e, hwf, htext, hedit⟩ := h
  refine ⟨p, by rwa [hheld], e.type b, hwf.type b, ?_, by rw [edit_concat, hedit, type_append]⟩
  rw [Edit.text_type hb, htext, hsettled, hheld, List.append_assoc]

/-- **An erase character** that finds what it should. -/
theorem Edited.erased {fed : List UInt8} {ds : List (List UInt8)} (h : σ.Edited fed ds)
    (hcont : σ.settled = σ.tty.contents) (hkeeps : σ.Erasable) (hheld : σ'.held = σ.held)
    (hsettled : σ'.settled = σ.tty.contents.dropLast) : σ'.Edited (fed ++ [del]) ds := by
  obtain ⟨p, hsole, e, hwf, htext, hedit⟩ := h
  rw [hcont] at htext
  refine ⟨p, by rwa [hheld], e.type del, hwf.type del, ?_,
    by rw [edit_concat, hedit, type_append]⟩
  have htype : (e.type del).text = e.lines.flatten ++ e.cur.dropLast := by
    rw [Edit.type, if_pos rfl]
    rfl
  rw [hsettled, hheld, htype]
  obtain ⟨huntaken, hlast⟩ | ⟨hnil, hheld⟩ := hkeeps
  · -- The byte that goes is the last of the line being typed.
    have hne : σ.tty.contents ≠ [] := by
      rw [untaken] at huntaken
      split at huntaken
      · exact fun hnil => huntaken (by rw [hnil]; rfl)
      · exact huntaken
    have hcur : e.cur ≠ [] := by
      refine hwf.cur_ne_nil ?_ ?_
      · rw [htext]
        exact List.append_ne_nil_of_right_ne_nil _ hne
      · rwa [htext, List.getLast?_append_of_ne_nil _ hne]
    rw [← List.dropLast_append_of_ne_nil hcur, ← List.dropLast_append_of_ne_nil hne]
    exact congrArg List.dropLast htext
  · -- There is nothing, so no line is being typed.
    have hall : e.text = [] := by rw [htext, hnil, hheld p]; rfl
    obtain ⟨hlines, hcur⟩ := List.append_eq_nil_iff.mp hall
    rw [hlines, hcur, hnil, hheld p]

/-- **A byte on a tick**, and the buffer is edited. -/
theorem Edits.tick (h : σ.Edits) {cur : ℕ} {b : UInt8} (htype : LineTyping σ (.tick cur b))
    (hkeeps : EditKeeps σ (.tick cur b)) :
    Edits { σ with tty := σ.tty.input cur b, typed := σ.typed ++ [b], fed := σ.fed ++ [b] } := by
  have hsettled := settled_of_feeding (σ := σ) hkeeps.1
  have hcont : σ.settled = σ.tty.contents := hsettled σ.tty σ.typed σ.fed
  by_cases hb : b = del
  · subst hb
    obtain ⟨hdel, hwf, hmoved⟩ := Tty.input_del h.steady.wf h.steady.canon cur
    have hera := hkeeps.2 rfl
    refine ⟨h.steady.tick hkeeps.1 hwf hmoved (fun p b hpc => ?_) _ _, congrArg (· ++ _) h.typed,
      h.stream.erased hcont hera rfl ((hsettled _ _ _).trans hdel)⟩
    -- The byte that is being taken is not the one that goes.
    have hhead : σ.tty.contents.head? = some b := h.steady.fits p _ hpc
    obtain ⟨huntaken, -⟩ | ⟨hnil, -⟩ := hera
    · rw [untaken, hpc] at huntaken
      rw [hdel]
      match hl : σ.tty.contents with
      | [] => rw [hl] at hhead; exact absurd hhead nofun
      | [_] => rw [hl] at huntaken; exact absurd rfl huntaken
      | x :: y :: l =>
        rw [hl] at hhead
        exact hhead
    · rw [hnil] at hhead
      exact absurd hhead nofun
  · have hord := htype.resolve_left hb
    obtain ⟨happ, hwf, hmoved⟩ := Tty.input_ordinary h.steady.wf h.steady.canon hord.1 hord.2 cur
    refine ⟨h.steady.tick hkeeps.1 hwf hmoved (fun p b' hpc => ?_) _ _, congrArg (· ++ _) h.typed,
      h.stream.typed hb rfl ?_⟩
    · have hhead : σ.tty.contents.head? = some b' := h.steady.fits p _ hpc
      rw [happ, List.head?_append, hhead, Option.some_or]
    · rw [hcont]
      exact (hsettled _ _ _).trans happ

/-- **A byte of the call's own `tty_drain`.** -/
theorem Edits.feed (h : σ.Edits) {cur : ℕ} {b : UInt8} (hpc : σ.pc = some (p, .drain))
    (htype : LineTyping σ (.feed cur b)) (hkeeps : EditKeeps σ (.feed cur b)) :
    Edits { σ.goto p ((σ.tty.feed cur b).2.elim .drain .input) with
      tty := (σ.tty.feed cur b).1, typed := σ.typed ++ [b], fed := σ.fed ++ [b] } := by
  have hcont := settled_of_plain (atEase_of_some hpc trivial)
  by_cases hb : b = del
  · subst hb
    rw [Tty.feed_del h.steady.canon]
    refine ⟨h.steady.feed (fun r hr => ?_) _ _, congrArg (· ++ _) h.typed,
      h.stream.erased hcont (hkeeps rfl) rfl ((settled_feed _ _ _).trans ?_)⟩
    · split at hr
      · next hbuf =>
        obtain rfl := Option.some.inj hr
        exact h.steady.wf.buffered.mp hbuf
      · exact absurd hr nofun
    · split
      · rfl
      · next hbuf =>
        rw [not_ne_iff.mp (mt h.steady.wf.buffered.mpr hbuf)]
        rfl
  · have hord := htype.resolve_left hb
    rw [Tty.feed_ordinary h.steady.canon hord.1 hord.2]
    refine ⟨h.steady.feed (o := some _) (fun r hr => ?_) _ _, congrArg (· ++ _) h.typed,
      h.stream.typed hb rfl ?_⟩
    · obtain rfl := Option.some.inj hr
      exact hord.2
    · rw [hcont]
      exact settled_feed (some _) _ _

/-- **A call returns** the first line, or nothing. -/
theorem Edits.returns (h : σ.Edits) {c : Call} (hpc : σ.pc = some (p, .scan))
    (hc : σ.calls p = some c) (hd : σ.Done c) (htype : LineTyping σ .go)
    (hkeeps : EditKeeps σ .go) :
    Edits { σ.setCall p none with pc := none, returned := σ.returned ++ [c.out] } := by
  refine ⟨h.steady.returns _, h.typed, ?_⟩
  obtain ⟨p', hsole, e, hwf, htext, hedit⟩ := h.stream.returns hpc hc (σ.returned ++ [c.out])
  have hdel : TtyState.delivered { σ.setCall p none with
      pc := none, returned := σ.returned ++ [c.out] } =
        σ.delivered ++ [c.out].filter (· ≠ []) := List.filter_append _ _
  rw [hdel]
  by_cases hnl : nl ∈ c.out
  · -- A line is complete, and it is the first of those that are left.
    have hne := List.ne_nil_of_mem hnl
    have hlast : nl ∉ c.out.dropLast := held_of_calls hc ▸ h.steady.last p
    obtain ⟨b, hb, hout⟩ : ∃ b, nl ∉ b ∧ c.out = b ++ [nl] := by
      refine ⟨c.out.dropLast, hlast, ?_⟩
      have hsplit := List.dropLast_append_getLast hne
      rw [← hsplit] at hnl
      obtain hm | hm := List.mem_append.mp hnl
      · exact absurd hm hlast
      · rw [List.mem_singleton.mp hm]
        exact hsplit.symm
    rw [hout, List.append_assoc] at htext
    obtain ⟨ls, hls, hrest⟩ := hwf.first_line hb htext
    refine ⟨p', hsole, ⟨ls, e.cur⟩, ⟨fun l hl => hwf.lines l ?_, hwf.cur⟩, hrest.symm, ?_⟩
    · rw [hls]
      exact List.mem_cons_of_mem _ hl
    · refine hedit.trans ?_
      rw [hls, hout]
      simp
  · -- The call must not wait, and there was nothing.
    have hnil : c.out = [] := by
      obtain hm | ⟨-, hlen⟩ | hnon := hd
      · exact absurd hm hnl
      · exact absurd hlen (not_le.mpr ((htype p hpc c hc).resolve_left hnl))
      · exact (hkeeps.2 p hpc c hc hnon).resolve_left hnl
    rw [hnil] at htext ⊢
    refine ⟨p', hsole, e, hwf, htext, hedit.trans ?_⟩
    simp

theorem Edited.congr {fed : List UInt8} {ds : List (List UInt8)} (h : σ.Edited fed ds)
    (hheld : σ'.held = σ.held) (hsettled : σ'.settled = σ.settled) : σ'.Edited fed ds :=
  Stream.congr h hheld hsettled

/-- **Each step** keeps the lines. -/
theorem Edits.step (h : σ.Edits) (htype : LineTyping σ op) (hkeeps : EditKeeps σ op)
    (hst : σ.step op = some σ') : σ'.Edits := by
  cases step_cases h.steady hst with
  | tick cur b => exact h.tick htype hkeeps
  | feed p cur b hpc => exact h.feed hpc htype hkeeps
  | takes p c hpc hc ht =>
    have hbefore := settled_of_plain (atEase_of_some hpc trivial)
    exact ⟨h.steady.takes hc ht (hkeeps.1 p hpc c hc ht), h.typed,
      h.stream.congr rfl hbefore.symm⟩
  | took p c b hpc hc => exact ⟨h.steady.took hpc hc, h.typed, h.stream.took h.steady hpc hc⟩
  | returns p c hpc hc hd => exact h.returns hpc hc hd htype hkeeps
  | input p r hpc =>
    exact ⟨h.steady.input hpc, h.typed, h.stream.congr rfl (settled_input h.steady hpc)⟩
  | quiet hq htyped =>
    have hsame : σ'.typed = σ.typed := by
      refine htyped.resolve_right ?_
      rintro ⟨b, rfl⟩
      exact Option.some_ne_none b hkeeps
    refine ⟨hq.steady h.steady, by rw [hsame, hq.fed, h.typed], ?_⟩
    rw [hq.fed, TtyState.delivered, hq.returned]
    exact h.stream.congr hq.held hq.settled

/-- The lines delivered are the first of those that were typed; those that are not delivered are
still there. -/
theorem Edits.delivered (h : σ.Edits) :
    σ.delivered <+: (edit σ.typed).lines ∧
      (σ.ReadOut → σ.delivered = (edit σ.typed).lines) := by
  obtain ⟨p, hsole, e, hwf, htext, hedit⟩ := h.stream
  rw [h.typed, hedit]
  refine ⟨List.prefix_append _ _, fun hout => ?_⟩
  have hlines : e.lines = [] := by
    by_contra hne
    obtain ⟨l, hl⟩ := List.exists_mem_of_ne_nil _ hne
    obtain ⟨b, rfl, -⟩ := hwf.lines l hl
    have hmem : nl ∈ e.text :=
      List.mem_append_left _ (List.mem_flatten.mpr ⟨_, hl, by simp⟩)
    rw [htext] at hmem
    exact (List.mem_append.mp hmem).elim (hout.2 p) hout.1
  rw [hlines, List.append_nil]

end TtyState

end Aurisys
