import Aurisys.Kernel.Tty
import Mathlib.Data.Fintype.Pi
import Mathlib.Data.List.Infix

/-!
# Reading the terminal

`dev_tty_rd` is a loop. A turn of it takes what there is, returns if that makes a line, and
otherwise polls and parks; any number of readers may be in it at once. No process switches away from
a reader between two parks, but ticks do come in between: a reader that has parked comes back with
interrupts on. So a step here is one store of the reader into what it shares with `tty_input`, and a
tick may bring bytes between any two of them.

## A line at a time

In canonical mode a turn moves into the caller's buffer whatever fits and then returns up to the
first newline only. What was behind the newline is in no buffer any more: a reader whose buffer is
longer than the line loses what had been typed ahead. And a tick in the middle of the `tty_input`
that a reader calls itself stores where the reader is about to. `tty_conserved` says when nothing is
lost.

## Implementation notes

Each byte of `tty_drain` is a step of its own, and a tick may come wherever interrupts are off too,
so that more schedules are covered than the kernel has. A tick is not interrupted. `tty_key(true)`
polls before it parks and its result is not used: a byte that comes between `tty_drain` and it goes
nowhere. The history (what was typed, what of it `tty_input` was given, and what calls returned) is
not in the code. The modes of the terminal do not change, so they are read again at each step.

## Main definitions

* `Call`, `TtyPc`, `TtyState`, `TtyOp`, `TtyReaches`
* `Conserved` — every byte has been returned, is held by a call or is in the buffer
* `ReadKeeps` — a step that loses nothing

## Main results

* `tty_conserved`
-/

namespace Aurisys

/-- Where in the loop of `dev_tty_rd` the call is that runs. -/
inductive TtyPc where
  /-- At the condition of the loop of `tty_take`. -/
  | take
  /-- In that loop, with a byte copied that `tail` has not passed. -/
  | took (b : UInt8)
  /-- Behind `tty_take`. -/
  | scan
  /-- In `tty_drain`. -/
  | drain
  /-- In a `tty_input` of its own `tty_drain`. -/
  | input (r : Tty.Rest)
  /-- In `tty_key(true)`, in front of the park. -/
  | key
deriving DecidableEq

/-- A call of `dev_tty_rd` that has not returned: how much it was asked for, and what it has. -/
structure Call where
  len : ℕ
  out : List UInt8
deriving DecidableEq

structure TtyState where
  tty : Tty
  calls : Fin kMaxTask → Option Call
  /-- The call that runs, and where it is. All others are parked. -/
  pc : Option (Fin kMaxTask × TtyPc)
  /-- What `tty_key` returned. -/
  typed : List UInt8
  /-- What of it `tty_input` was given. -/
  fed : List UInt8
  /-- What each call returned; the number it returned is the length. -/
  returned : List (List UInt8)

/-- What can happen. -/
inductive TtyOp where
  /-- The `tty_drain` of a tick finds a byte, while the process `cur` runs. -/
  | tick (cur : ℕ) (c : UInt8)
  | call (p : Fin kMaxTask) (len : ℕ)
  /-- A call that has parked is woken and runs. -/
  | wake (p : Fin kMaxTask)
  /-- The next thing that the call does which runs. Its `tty_drain` finds no more. -/
  | go
  /-- The `tty_drain` of the call finds a byte. -/
  | feed (cur : ℕ) (c : UInt8)
  /-- The call gets past the poll of `tty_key(true)`: with a byte, or it parks. -/
  | key (c : Option UInt8)

namespace TtyState

def setCall (σ : TtyState) (p : Fin kMaxTask) (o : Option Call) : TtyState :=
  { σ with calls := Function.update σ.calls p o }

def goto (σ : TtyState) (p : Fin kMaxTask) (pc : TtyPc) : TtyState := { σ with pc := some (p, pc) }

/-- `tty_take` has something to take. -/
def Takes (σ : TtyState) (c : Call) : Prop :=
  c.out.length < c.len ∧ σ.tty.eof = false ∧ σ.tty.buffered

instance (σ : TtyState) (c : Call) : Decidable (σ.Takes c) :=
  inferInstanceAs (Decidable (_ ∧ _ ∧ _))

/-- The next thing that the call `c` of `p` does. -/
def go (σ : TtyState) (p : Fin kMaxTask) (c : Call) : TtyPc → Option TtyState
  | .take => some (σ.goto p (if σ.Takes c then .took (σ.tty.buf σ.tty.tail) else .scan))
  | .took b =>
    some { (σ.setCall p (some { c with out := c.out ++ [b] })).goto p .take with
      tty := σ.tty.next }
  | .scan =>
    match σ.tty.scan c.len c.out with
    | (some l, t) =>
      some { σ.setCall p none with tty := t, pc := none, returned := σ.returned ++ [l] }
    | (none, t) => some { σ.goto p .drain with tty := t }
  | .drain => some (σ.goto p (if σ.tty.buffered ∨ σ.tty.eof then .take else .key))
  | .input r =>
    some { σ.goto p ((r.next σ.tty).2.elim .drain .input) with tty := (r.next σ.tty).1 }
  | .key => none

/-- One step; `none` if it cannot happen now. -/
def step (σ : TtyState) : TtyOp → Option TtyState
  | .tick cur c =>
    some { σ with tty := σ.tty.input cur c, typed := σ.typed ++ [c], fed := σ.fed ++ [c] }
  | .call p len =>
    if σ.pc ≠ none ∨ σ.calls p ≠ none then none
    else if len = 0 then some { σ with returned := σ.returned ++ [[]] }
    else some ((σ.setCall p (some ⟨len, []⟩)).goto p .take)
  | .wake p => if σ.pc ≠ none ∨ σ.calls p = none then none else some (σ.goto p .take)
  | .go => σ.pc.bind fun (p, pc) => (σ.calls p).bind fun c => σ.go p c pc
  | .feed cur c =>
    match σ.pc with
    | some (p, .drain) =>
      some { σ.goto p ((σ.tty.feed cur c).2.elim .drain .input) with
        tty := (σ.tty.feed cur c).1, typed := σ.typed ++ [c], fed := σ.fed ++ [c] }
    | _ => none
  | .key o =>
    match σ.pc with
    | some (p, .key) =>
      some { σ with pc := o.map fun _ => (p, .take), typed := σ.typed ++ o.toList }
    | _ => none

/-- Nobody has typed anything and nobody reads. -/
def start (t : Tty) : TtyState := ⟨t, fun _ => none, none, [], [], []⟩

/-- What a task has in the call it is in. -/
def held (σ : TtyState) (p : Fin kMaxTask) : List UInt8 := (σ.calls p).elim [] Call.out

/-- What is in the buffer, once the call that is in `tty_input` gets out of it. -/
def settled (σ : TtyState) : List UInt8 :=
  match σ.pc with
  | some (_, .input r) => r.settle σ.tty.contents
  | _ => σ.tty.contents

end TtyState

/-- The terminal after `vfs::init`. -/
def Tty.init : Tty :=
  ⟨fun _ => 0, 0, 0, kTtyCanon ||| kTtyEcho ||| kTtySig, 0, false, false, [], []⟩

/-- A terminal in canonical mode, nothing typed. -/
structure Tty.Idle (t : Tty) : Prop where
  /-- The rings are in order. -/
  wf : t.WF
  /-- Input goes by lines. -/
  canon : t.canon
  /-- There is none, -/
  empty : t.contents = []
  /-- and no end of the file. -/
  eof : t.eof = false

/-- The states that steps lead to from a terminal, when each is one that `ok` permits. -/
inductive TtyReaches (ok : TtyState → TtyOp → Prop) (t : Tty) : TtyState → Prop where
  | start : TtyReaches ok t (.start t)
  | step {σ σ' : TtyState} {op : TtyOp} (hr : TtyReaches ok t σ) (hok : ok σ op)
      (hst : σ.step op = some σ') : TtyReaches ok t σ'

/-- Steps one after the other, each of which `ok` permits. -/
def TtyState.run (ok : TtyState → TtyOp → Prop) [∀ σ, DecidablePred (ok σ)] :
    TtyState → List TtyOp → Option TtyState
  | σ, [] => some σ
  | σ, op :: ops => if ok σ op then (σ.step op).bind (run ok · ops) else none

/-- **Nothing is lost**: the bytes that were typed are what calls returned, one after the other,
then what calls that have not returned hold, and then what is in the buffer. -/
def Conserved (σ : TtyState) : Prop :=
  ∃ ps : List (Fin kMaxTask), ps.Nodup ∧ (∀ q ∉ ps, σ.held q = []) ∧
    σ.fed.map Tty.crnl = σ.returned.flatten ++ ps.flatMap σ.held ++ σ.settled

/-- The bytes in question: none erases, interrupts or ends the file, and there is room. -/
def PlainTyping (σ : TtyState) : TtyOp → Prop
  | .tick _ c | .feed _ c => σ.tty.Ordinary c ∧ σ.tty.contents.length < 255
  | _ => True

/-- The call that runs is in its own `tty_input`. -/
def TtyState.feeding (σ : TtyState) : Bool :=
  match σ.pc with
  | some (_, .input _) => true
  | _ => false

/-- A step that loses nothing. A call takes a byte only while it has no newline and no other call
has any bytes, and a tick brings one only while no reader is in its own `tty_input`. -/
def ReadKeeps (σ : TtyState) : TtyOp → Prop
  | .tick _ _ => σ.feeding = false
  | .go => ∀ p, σ.pc = some (p, .take) → ∀ c ∈ σ.calls p, σ.Takes c →
      nl ∉ c.out ∧ ∀ q ≠ p, σ.held q = []
  | _ => True

instance (σ : TtyState) : DecidablePred (PlainTyping σ)
  | .tick .. | .feed .. => inferInstanceAs (Decidable (_ ∧ _))
  | .call .. | .wake _ | .go | .key _ => inferInstanceAs (Decidable True)

instance (σ : TtyState) : DecidablePred (ReadKeeps σ)
  | .tick .. => inferInstanceAs (Decidable (_ = _))
  | .go => inferInstanceAs (Decidable (∀ _, _ → ∀ c ∈ σ.calls _, _ → _ ∧ _))
  | .call .. | .wake _ | .feed .. | .key _ => inferInstanceAs (Decidable True)

namespace TtyState

/-- Where a call may be with this terminal, as long as nothing has come in between. -/
def Fits (t : Tty) : TtyPc → Prop
  | .took b => t.contents.head? = some b
  | .input r => r.Fits t
  | _ => True

/-- Canonical mode stays, and a newline is the last byte that a call takes. -/
structure Steady (σ : TtyState) : Prop where
  /-- The rings are in order. -/
  wf : σ.tty.WF
  /-- Input goes by lines. -/
  canon : σ.tty.canon
  /-- No end of the file is typed. -/
  eof : σ.tty.eof = false
  /-- What the running call knows of the buffer. -/
  fits : ∀ p pc, σ.pc = some (p, pc) → Fits σ.tty pc
  /-- Nobody has a newline but as the last byte. -/
  last : ∀ q, nl ∉ (σ.held q).dropLast
  /-- A byte is taken by the only call that may have any. -/
  taker : ∀ p b, σ.pc = some (p, .took b) → nl ∉ σ.held p ∧ ∀ q ≠ p, σ.held q = []

variable {σ σ' : TtyState} {p : Fin kMaxTask} {c : Call} {op : TtyOp}

theorem held_of_calls (hc : σ.calls p = some c) : σ.held p = c.out := by
  rw [held, hc]
  rfl

theorem held_setCall (σ : TtyState) (p : Fin kMaxTask) (o : Option Call) :
    (σ.setCall p o).held = Function.update σ.held p (o.elim [] Call.out) := by
  funext q
  by_cases hq : q = p
  · subst hq
    rw [Function.update_self, held]
    exact congrArg (Option.elim · [] Call.out) (Function.update_self _ _ _)
  · rw [Function.update_of_ne hq, held]
    exact congrArg (Option.elim · [] Call.out) (Function.update_of_ne hq _ _)

/-- Whether a call that has looked through its bytes returns them. -/
def Done (σ : TtyState) (c : Call) : Prop :=
  nl ∈ c.out ∨ (c.out ≠ [] ∧ c.len ≤ c.out.length) ∨ σ.tty.nonblock

instance (σ : TtyState) (c : Call) : Decidable (σ.Done c) :=
  inferInstanceAs (Decidable (_ ∨ _ ∨ _))

/-- What a step leaves alone that moves no byte. -/
structure Quiet (σ σ' : TtyState) : Prop where
  tty : σ'.tty = σ.tty
  held : σ'.held = σ.held
  fed : σ'.fed = σ.fed
  returned : σ'.returned.filter (· ≠ []) = σ.returned.filter (· ≠ [])
  /-- The running call is in no store, before or after. -/
  settled : σ'.settled = σ.settled
  pc : ∀ p pc, σ'.pc = some (p, pc) → Fits σ.tty pc ∧ ∀ b, pc ≠ .took b

/-- **What a step can be.** -/
inductive Went (σ : TtyState) : TtyOp → TtyState → Prop
  | tick (cur : ℕ) (b : UInt8) : Went σ (.tick cur b)
      { σ with tty := σ.tty.input cur b, typed := σ.typed ++ [b], fed := σ.fed ++ [b] }
  | feed (p : Fin kMaxTask) (cur : ℕ) (b : UInt8) (hpc : σ.pc = some (p, .drain)) :
      Went σ (.feed cur b)
        { σ.goto p ((σ.tty.feed cur b).2.elim .drain .input) with
          tty := (σ.tty.feed cur b).1, typed := σ.typed ++ [b], fed := σ.fed ++ [b] }
  /-- A byte is copied. -/
  | takes (p : Fin kMaxTask) (c : Call) (hpc : σ.pc = some (p, .take)) (hc : σ.calls p = some c)
      (ht : σ.Takes c) : Went σ .go (σ.goto p (.took (σ.tty.buf σ.tty.tail)))
  | took (p : Fin kMaxTask) (c : Call) (b : UInt8) (hpc : σ.pc = some (p, .took b))
      (hc : σ.calls p = some c) :
      Went σ .go { (σ.setCall p (some { c with out := c.out ++ [b] })).goto p .take with
        tty := σ.tty.next }
  | returns (p : Fin kMaxTask) (c : Call) (hpc : σ.pc = some (p, .scan)) (hc : σ.calls p = some c)
      (hd : σ.Done c) :
      Went σ .go { σ.setCall p none with pc := none, returned := σ.returned ++ [c.out] }
  | input (p : Fin kMaxTask) (r : Tty.Rest) (hpc : σ.pc = some (p, .input r)) :
      Went σ .go { σ.goto p ((r.next σ.tty).2.elim .drain .input) with tty := (r.next σ.tty).1 }
  | quiet {op : TtyOp} {σ' : TtyState} (hq : Quiet σ σ')
      (htyped : σ'.typed = σ.typed ∨ ∃ b, op = .key (some b)) : Went σ op σ'

/-- Where the running call neither copies nor stores. -/
def Plain : TtyPc → Prop
  | .took _ | .input _ => False
  | _ => True

theorem settled_of_plain (h : ∀ p pc, σ.pc = some (p, pc) → Plain pc) :
    σ.settled = σ.tty.contents := by
  rw [settled]
  split
  · next hpc => exact (h _ _ hpc).elim
  · rfl

/-- The running call, if there is one, is in such a place. -/
def AtEase (σ : TtyState) : Prop := ∀ p pc, σ.pc = some (p, pc) → Plain pc

theorem atEase_of_none (h : σ.pc = none) : σ.AtEase := fun p pc hp => by
  rw [h] at hp
  exact absurd hp nofun

theorem atEase_of_some {pc : TtyPc} (h : σ.pc = some (p, pc)) (hp : Plain pc) : σ.AtEase := by
  intro q pc' hq
  obtain ⟨rfl, rfl⟩ := Prod.mk.inj (Option.some.inj (h.symm.trans hq))
  exact hp

theorem Quiet.of_atEase (h : σ.AtEase) (h' : σ'.AtEase) (htty : σ'.tty = σ.tty)
    (hheld : σ'.held = σ.held) (hfed : σ'.fed = σ.fed)
    (hret : σ'.returned.filter (· ≠ []) = σ.returned.filter (· ≠ [])) : Quiet σ σ' := by
  refine ⟨htty, hheld, hfed, hret, ?_, fun q pc hpc => ?_⟩
  · rw [settled_of_plain h', settled_of_plain h, htty]
  · have := h' q pc hpc
    cases pc <;> first | exact this.elim | exact ⟨trivial, nofun⟩

/-- The running call goes from one such place to another. -/
theorem quiet_goto {pc pc' : TtyPc} (hpc : σ.pc = some (p, pc)) (hp : Plain pc) (hp' : Plain pc') :
    Quiet σ (σ.goto p pc') :=
  .of_atEase (atEase_of_some hpc hp) (atEase_of_some rfl hp') rfl rfl rfl rfl

theorem go_cases (h : σ.Steady) {pc : TtyPc} (hpc : σ.pc = some (p, pc)) (hc : σ.calls p = some c)
    (hst : σ.go p c pc = some σ') : Went σ .go σ' := by
  cases pc with
  | take =>
    obtain rfl := Option.some.inj hst
    by_cases ht : σ.Takes c
    · rw [if_pos ht]
      exact .takes p c hpc hc ht
    · rw [if_neg ht]
      exact .quiet (quiet_goto hpc trivial trivial) (.inl rfl)
  | took b =>
    obtain rfl := Option.some.inj hst
    exact .took p c b hpc hc
  | scan =>
    have hlast : nl ∉ c.out.dropLast := held_of_calls hc ▸ h.last p
    simp only [go, Tty.scan_of_last h.canon h.eof hlast] at hst
    by_cases hd : σ.Done c
    · have hd' : nl ∈ c.out ∨ (c.out ≠ [] ∧ c.len ≤ c.out.length) ∨ σ.tty.nonblock := hd
      rw [if_pos hd'] at hst
      obtain rfl := Option.some.inj hst
      exact .returns p c hpc hc hd
    · have hd' : ¬(nl ∈ c.out ∨ (c.out ≠ [] ∧ c.len ≤ c.out.length) ∨ σ.tty.nonblock) := hd
      rw [if_neg hd'] at hst
      obtain rfl := Option.some.inj hst
      exact .quiet (quiet_goto hpc trivial trivial) (.inl rfl)
  | drain =>
    obtain rfl := Option.some.inj hst
    refine .quiet (quiet_goto hpc trivial ?_) (.inl rfl)
    split <;> trivial
  | input r =>
    obtain rfl := Option.some.inj hst
    exact .input p r hpc
  | key => exact absurd hst nofun

theorem step_cases (h : σ.Steady) (hst : σ.step op = some σ') : Went σ op σ' := by
  cases op with
  | tick cur b =>
    obtain rfl := Option.some.inj hst
    exact .tick cur b
  | call p len =>
    rw [step] at hst
    split at hst
    · exact absurd hst nofun
    · next hno =>
      obtain ⟨hpc, hp⟩ := not_or.mp hno
      rw [not_not] at hpc hp
      have hease := atEase_of_none hpc
      split at hst
      · obtain rfl := Option.some.inj hst
        exact .quiet (.of_atEase hease hease rfl rfl rfl (by simp)) (.inl rfl)
      · obtain rfl := Option.some.inj hst
        have hheld : σ.held p = [] := by rw [held, hp]; rfl
        refine .quiet (.of_atEase hease (atEase_of_some rfl trivial) rfl ?_ rfl rfl) (.inl rfl)
        exact (held_setCall σ p _).trans (Function.update_eq_iff.mpr ⟨hheld.symm, fun _ _ => rfl⟩)
  | wake p =>
    rw [step] at hst
    split at hst
    · exact absurd hst nofun
    · next hno =>
      have hpc := not_not.mp (not_or.mp hno).1
      obtain rfl := Option.some.inj hst
      exact .quiet (.of_atEase (atEase_of_none hpc) (atEase_of_some rfl trivial) rfl rfl rfl rfl)
        (.inl rfl)
  | go =>
    obtain ⟨⟨p, pc⟩, hpc, hst⟩ := Option.bind_eq_some_iff.mp hst
    obtain ⟨c, hc, hst⟩ := Option.bind_eq_some_iff.mp hst
    exact go_cases h hpc hc hst
  | feed cur b =>
    rw [step] at hst
    split at hst
    · next p hpc =>
      obtain rfl := Option.some.inj hst
      exact .feed p cur b hpc
    · exact absurd hst nofun
  | key o =>
    rw [step] at hst
    split at hst
    · next p hpc =>
      obtain rfl := Option.some.inj hst
      have hease := atEase_of_some hpc trivial
      cases o with
      | none =>
        exact .quiet (.of_atEase hease (atEase_of_none rfl) rfl rfl rfl rfl)
          (.inl (List.append_nil _))
      | some b =>
        exact .quiet (.of_atEase hease (atEase_of_some rfl trivial) rfl rfl rfl rfl) (.inr ⟨b, rfl⟩)
    · exact absurd hst nofun

/-! ## Canonical mode -/

theorem Quiet.steady (hq : Quiet σ σ') (h : σ.Steady) : σ'.Steady := by
  refine ⟨hq.tty ▸ h.wf, hq.tty ▸ h.canon, hq.tty ▸ h.eof, fun p pc hpc => ?_,
    ?_, fun p b hpc => ?_⟩
  · rw [hq.tty]
    exact (hq.pc p pc hpc).1
  · rw [hq.held]
    exact h.last
  · exact absurd rfl ((hq.pc p _ hpc).2 b)

theorem settled_of_feeding (h : σ.feeding = false) (t : Tty) (l l' : List UInt8) :
    { σ with tty := t, typed := l, fed := l' }.settled = t.contents := by
  rw [settled]
  rw [feeding] at h
  split at h
  · exact absurd h Bool.noConfusion
  · rfl

/-- **A tick** that leaves the byte in place which is being taken. -/
theorem Steady.tick (h : σ.Steady) (hf : σ.feeding = false) {t : Tty} (hwf : t.WF)
    (hm : Tty.Moved σ.tty t)
    (hhead : ∀ p b, σ.pc = some (p, .took b) → t.contents.head? = some b) (l l' : List UInt8) :
    Steady { σ with tty := t, typed := l, fed := l' } := by
  refine ⟨hwf, hm.canon.trans h.canon, hm.eof.trans h.eof, fun p pc hpc => ?_, h.last, h.taker⟩
  have hpc : σ.pc = some (p, pc) := hpc
  cases pc with
  | took b => exact hhead p b hpc
  | input r =>
    rw [feeding, hpc] at hf
    exact absurd hf nofun
  | _ => trivial

/-- **A byte of the call's own `tty_drain`**. -/
theorem Steady.feed (h : σ.Steady) {o : Option Tty.Rest} (ho : ∀ r ∈ o, r.Fits σ.tty)
    (l l' : List UInt8) :
    Steady { σ.goto p (o.elim .drain .input) with typed := l, fed := l' } := by
  refine ⟨h.wf, h.canon, h.eof, fun q pc hpc => ?_, h.last, fun q b hpc => ?_⟩
  · obtain ⟨-, rfl⟩ := Prod.mk.inj (Option.some.inj hpc)
    cases o with
    | none => trivial
    | some r => exact ho r rfl
  · obtain ⟨-, hb⟩ := Prod.mk.inj (Option.some.inj hpc)
    cases o <;> exact absurd hb nofun

theorem settled_feed (o : Option Tty.Rest) (l l' : List UInt8) :
    { σ.goto p (o.elim .drain .input) with typed := l, fed := l' }.settled =
      o.elim σ.tty.contents (·.settle σ.tty.contents) := by
  cases o <;> rfl

/-- **A byte is copied.** -/
theorem Steady.takes (h : σ.Steady) (hc : σ.calls p = some c) (ht : σ.Takes c)
    (hkeeps : nl ∉ c.out ∧ ∀ q ≠ p, σ.held q = []) :
    (σ.goto p (.took (σ.tty.buf σ.tty.tail))).Steady := by
  refine ⟨h.wf, h.canon, h.eof, fun q pc hpc => ?_, h.last, fun q b hpc => ?_⟩
  · obtain ⟨-, rfl⟩ := Prod.mk.inj (Option.some.inj hpc)
    change σ.tty.contents.head? = _
    rw [Tty.contents_next h.wf (h.wf.buffered.mp ht.2.2)]
    rfl
  · obtain ⟨rfl, -⟩ := Prod.mk.inj (Option.some.inj hpc)
    change nl ∉ σ.held p ∧ _
    rw [held_of_calls hc]
    exact hkeeps

/-- **`tail` passes it.** -/
theorem Steady.took (h : σ.Steady) {b : UInt8} (hpc : σ.pc = some (p, .took b))
    (hc : σ.calls p = some c) :
    Steady { (σ.setCall p (some { c with out := c.out ++ [b] })).goto p .take with
      tty := σ.tty.next } := by
  refine ⟨h.wf.next, h.canon, h.eof, fun q pc hq => ?_, fun q => ?_, fun q b' hq => ?_⟩
  · obtain ⟨-, rfl⟩ := Prod.mk.inj (Option.some.inj hq)
    trivial
  · change nl ∉ ((σ.setCall p _).held q).dropLast
    rw [held_setCall]
    by_cases hqp : q = p
    · subst hqp
      rw [Function.update_self]
      change nl ∉ (c.out ++ [b]).dropLast
      rw [List.dropLast_concat, ← held_of_calls hc]
      exact (h.taker q b hpc).1
    · rw [Function.update_of_ne hqp]
      exact h.last q
  · exact absurd (Prod.mk.inj (Option.some.inj hq)).2 nofun

theorem Steady.returns (h : σ.Steady) (l : List (List UInt8)) :
    Steady { σ.setCall p none with pc := none, returned := l } := by
  refine ⟨h.wf, h.canon, h.eof, nofun, fun q => ?_, nofun⟩
  change nl ∉ ((σ.setCall p none).held q).dropLast
  rw [held_setCall]
  by_cases hqp : q = p
  · subst hqp
    rw [Function.update_self]
    exact List.not_mem_nil
  · rw [Function.update_of_ne hqp]
    exact h.last q

theorem Steady.input (h : σ.Steady) {r : Tty.Rest} (hpc : σ.pc = some (p, .input r)) :
    Steady { σ.goto p ((r.next σ.tty).2.elim .drain .input) with tty := (r.next σ.tty).1 } := by
  obtain ⟨hwf, hm, hfits, -⟩ := Tty.Rest.next_spec h.wf (h.fits p _ hpc)
  refine ⟨hwf, hm.canon.trans h.canon, hm.eof.trans h.eof, fun q pc hq => ?_, h.last,
    fun q b hq => ?_⟩
  · obtain ⟨-, rfl⟩ := Prod.mk.inj (Option.some.inj hq)
    cases hr : (r.next σ.tty).2 with
    | none => trivial
    | some r' => exact hfits r' hr
  · have hb := (Prod.mk.inj (Option.some.inj hq)).2
    cases hr : (r.next σ.tty).2 <;> rw [hr] at hb <;> exact absurd hb nofun

theorem settled_input (h : σ.Steady) {r : Tty.Rest} (hpc : σ.pc = some (p, .input r)) :
    { σ.goto p ((r.next σ.tty).2.elim .drain .input) with tty := (r.next σ.tty).1 }.settled =
      σ.settled := by
  obtain ⟨-, -, -, hsettle⟩ := Tty.Rest.next_spec h.wf (h.fits p _ hpc)
  have hbefore : σ.settled = r.settle σ.tty.contents := by rw [settled, hpc]
  rw [hbefore, ← hsettle]
  cases hr : (r.next σ.tty).2 <;> rfl

/-! ## Conservation -/

/-- At most one call has any bytes, and with those in the buffer behind them they satisfy `R`. -/
def Stream (σ : TtyState) (R : List UInt8 → Prop) : Prop :=
  ∃ p, (∀ q ≠ p, σ.held q = []) ∧ R (σ.held p ++ σ.settled)

theorem Stream.congr {R : List UInt8 → Prop} (h : σ.Stream R) (hheld : σ'.held = σ.held)
    (hsettled : σ'.settled = σ.settled) : σ'.Stream R := by
  rw [Stream, hheld, hsettled]
  exact h

/-- The call that takes a byte may be the one that has the bytes. -/
theorem Stream.at_taker {R : List UInt8 → Prop} (h : σ.Stream R) (hp : ∀ q ≠ p, σ.held q = []) :
    R (σ.held p ++ σ.settled) := by
  obtain ⟨p', hsole, hR⟩ := h
  by_cases heq : p = p'
  · exact heq ▸ hR
  · rwa [hp p' (Ne.symm heq), ← hsole p heq] at hR

/-- **A byte goes from the buffer to the call.** -/
theorem Stream.took {R : List UInt8 → Prop} (h : σ.Stream R) (hs : σ.Steady) {b : UInt8}
    (hpc : σ.pc = some (p, .took b)) (hc : σ.calls p = some c) :
    Stream { (σ.setCall p (some { c with out := c.out ++ [b] })).goto p .take with
      tty := σ.tty.next } R := by
  obtain ⟨-, hothers⟩ := hs.taker p b hpc
  have hhead : σ.tty.contents.head? = some b := hs.fits p _ hpc
  have hne : σ.tty.contents ≠ [] := by
    intro hnil
    rw [hnil] at hhead
    exact absurd hhead nofun
  have hnext := Tty.contents_next hs.wf hne
  have hb : σ.tty.buf σ.tty.tail = b := by
    rw [hnext] at hhead
    exact Option.some.inj hhead
  have hsettled : σ.settled = σ.tty.contents := by rw [settled, hpc]
  have hR := h.at_taker hothers
  refine ⟨p, fun q hq => ?_, ?_⟩
  · change (σ.setCall p _).held q = []
    rw [held_setCall, Function.update_of_ne hq]
    exact hothers q hq
  · change R ((σ.setCall p _).held p ++ σ.tty.next.contents)
    rw [held_setCall, Function.update_self]
    change R (c.out ++ [b] ++ σ.tty.next.contents)
    rw [hsettled, hnext, hb, held_of_calls hc] at hR
    rwa [List.append_assoc]

/-- **A call returns** what it has, and the rest is still there. -/
theorem Stream.returns {R : List UInt8 → Prop} (h : σ.Stream R) (hpc : σ.pc = some (p, .scan))
    (hc : σ.calls p = some c) (l : List (List UInt8)) :
    Stream { σ.setCall p none with pc := none, returned := l } fun s => R (c.out ++ s) := by
  have hsettled : σ.settled = σ.tty.contents := by rw [settled, hpc]
  obtain ⟨p', hsole, hR⟩ := h
  rw [hsettled] at hR
  have hheld : TtyState.held { σ.setCall p none with pc := none, returned := l } =
      Function.update σ.held p [] := held_setCall σ p none
  rw [Stream, hheld]
  by_cases heq : p' = p
  · subst heq
    refine ⟨p', fun q hq => by rw [Function.update_of_ne hq]; exact hsole q hq, ?_⟩
    rw [Function.update_self, ← held_of_calls hc]
    exact hR
  · have hnil : c.out = [] := by rw [← held_of_calls hc, hsole p (Ne.symm heq)]
    refine ⟨p', fun q hq => ?_, ?_⟩
    · by_cases hqp : q = p
      · rw [hqp, Function.update_self]
      · rw [Function.update_of_ne hqp, hsole q hq]
    · rw [Function.update_of_ne heq, hnil]
      exact hR

/-- The bytes that have been typed but not returned are all there. -/
structure Conserves (σ : TtyState) : Prop where
  /-- The terminal is in order. -/
  steady : σ.Steady
  /-- What was typed has been returned, or is still there. -/
  stream : σ.Stream fun s => σ.fed.map Tty.crnl = σ.returned.flatten ++ s

theorem Steady.start {t : Tty} (h : t.Idle) : (TtyState.start t).Steady :=
  ⟨h.wf, h.canon, h.eof, nofun, fun _ => List.not_mem_nil, nofun⟩

theorem Conserves.start {t : Tty} (h : t.Idle) : (TtyState.start t).Conserves :=
  ⟨.start h, 0, fun _ _ => rfl, h.empty.symm⟩

theorem Quiet.flatten (h : Quiet σ σ') : σ'.returned.flatten = σ.returned.flatten := by
  rw [← List.flatten_filter_ne_nil, h.returned, List.flatten_filter_ne_nil]

/-- A byte that only goes into the buffer goes behind all others. -/
theorem Stream.typed {fed : List UInt8} {b : UInt8} {pre : List UInt8} (h : σ.Stream fun s =>
    fed.map Tty.crnl = pre ++ s) (hheld : σ'.held = σ.held)
    (hsettled : σ'.settled = σ.settled ++ [Tty.crnl b]) :
    σ'.Stream fun s => (fed ++ [b]).map Tty.crnl = pre ++ s := by
  obtain ⟨p, hsole, hfed⟩ := h
  refine ⟨p, by rwa [hheld], ?_⟩
  rw [hsettled, hheld, List.map_append, hfed, List.append_assoc, List.append_assoc]
  rfl

/-- **Each step** loses nothing. -/
theorem Conserves.step (h : σ.Conserves) (htype : PlainTyping σ op) (hkeeps : ReadKeeps σ op)
    (hst : σ.step op = some σ') : σ'.Conserves := by
  cases step_cases h.steady hst with
  | tick cur b =>
    obtain ⟨hcont, hwf, hmoved⟩ :=
      Tty.input_ordinary h.steady.wf h.steady.canon htype.1 htype.2 cur
    refine ⟨h.steady.tick hkeeps hwf hmoved (fun p b' hpc => ?_) _ _, h.stream.typed rfl ?_⟩
    · have hhead : σ.tty.contents.head? = some b' := h.steady.fits p _ hpc
      rw [hcont, List.head?_append, hhead, Option.some_or]
    · rw [settled_of_feeding hkeeps, settled_of_feeding (σ := σ) hkeeps σ.tty σ.typed σ.fed, hcont]
  | feed p cur b hpc =>
    have hfeed := Tty.feed_ordinary h.steady.canon htype.1 htype.2 cur
    rw [hfeed]
    refine ⟨h.steady.feed (o := some _) (fun r hr => ?_) _ _, h.stream.typed rfl ?_⟩
    · obtain rfl := Option.some.inj hr
      exact htype.2
    · rw [settled_of_plain (atEase_of_some hpc trivial)]
      exact settled_feed (some _) _ _
  | takes p c hpc hc ht =>
    have hbefore := settled_of_plain (atEase_of_some hpc trivial)
    exact ⟨h.steady.takes hc ht (hkeeps p hpc c hc ht), h.stream.congr rfl hbefore.symm⟩
  | took p c b hpc hc => exact ⟨h.steady.took hpc hc, h.stream.took h.steady hpc hc⟩
  | returns p c hpc hc hd =>
    refine ⟨h.steady.returns _, ?_⟩
    obtain ⟨p', hsole, hfed⟩ := h.stream.returns hpc hc (σ.returned ++ [c.out])
    refine ⟨p', hsole, hfed.trans ?_⟩
    rw [List.flatten_append, List.flatten_singleton, List.append_assoc]
  | input p r hpc =>
    exact ⟨h.steady.input hpc, h.stream.congr rfl (settled_input h.steady hpc)⟩
  | quiet hq =>
    refine ⟨hq.steady h.steady, ?_⟩
    rw [hq.fed, hq.flatten]
    exact h.stream.congr hq.held hq.settled

theorem reaches_run {ok : TtyState → TtyOp → Prop} [∀ σ, DecidablePred (ok σ)] {t : Tty}
    {ops : List TtyOp} (hr : TtyReaches ok t σ) (hrun : σ.run ok ops = some σ') :
    TtyReaches ok t σ' := by
  induction ops generalizing σ with
  | nil => exact Option.some.inj hrun ▸ hr
  | cons op ops ih =>
    rw [run] at hrun
    split at hrun
    · next hok =>
      obtain ⟨σ₁, hst, hrun⟩ := Option.bind_eq_some_iff.mp hrun
      exact ih (hr.step hok hst) hrun
    · exact absurd hrun (by simp)

theorem Conserves.conserved (h : σ.Conserves) : Conserved σ := by
  obtain ⟨p, hsole, hfed⟩ := h.stream
  refine ⟨[p], List.nodup_singleton p, fun q hq => hsole q (by simpa using hq), ?_⟩
  rw [hfed, List.flatMap_singleton, List.append_assoc]

end TtyState

theorem Tty.init_idle : Tty.init.Idle :=
  ⟨⟨by decide, by decide⟩, by decide, by decide, rfl⟩

/-- **Nothing that is typed is lost**, as long as no call takes anything behind a newline, or while
another call has bytes, and no tick comes in the middle of a reader's own `tty_input`. -/
theorem tty_conserved {t : Tty} {σ : TtyState} (ht : t.Idle)
    (h : TtyReaches (fun σ op => PlainTyping σ op ∧ ReadKeeps σ op) t σ) : Conserved σ := by
  suffices hinv : σ.Conserves from hinv.conserved
  induction h with
  | start => exact .start ht
  | step _ hok hst ih => exact ih.step hok.1 hok.2 hst

/-- A line is read after it has been typed. -/
theorem tty_conserved_line :
    ∃ σ, TtyReaches (fun σ op => PlainTyping σ op ∧ ReadKeeps σ op) .init σ ∧
    σ.returned = [[0x61, nl]] ∧ Conserved σ := by
  let ok : TtyState → TtyOp → Prop := fun σ op => PlainTyping σ op ∧ ReadKeeps σ op
  obtain ⟨σ, hrun, hret⟩ : ∃ σ, TtyState.run ok (.start .init)
      ([.tick 0 0x61, .tick 0 0x0D, .call 0 10] ++ List.replicate 6 .go) = some σ ∧
      σ.returned = [[0x61, nl]] :=
    ⟨_, rfl, by decide +kernel⟩
  have hr : TtyReaches ok .init σ := TtyState.reaches_run .start hrun
  exact ⟨σ, hr, hret, tty_conserved Tty.init_idle hr⟩

/-- **Typing ahead loses**: with `a`, a newline and `b` typed, a read of ten bytes returns the line,
and `b` is gone. -/
theorem typeahead_lost : Tty.init.Idle ∧
    ∃ σ, TtyReaches PlainTyping .init σ ∧ σ.returned = [[0x61, nl]] ∧ ¬Conserved σ := by
  obtain ⟨σ, hrun, hret, hheld, hfed⟩ : ∃ σ, TtyState.run PlainTyping (.start .init)
      ([.tick 0 0x61, .tick 0 nl, .tick 0 0x62, .call 0 10] ++ List.replicate 8 .go) = some σ ∧
      σ.returned = [[0x61, nl]] ∧ (∀ p, σ.held p = []) ∧
      σ.fed.map Tty.crnl ≠ σ.returned.flatten ++ σ.settled :=
    ⟨_, rfl, by decide +kernel⟩
  refine ⟨Tty.init_idle, σ, TtyState.reaches_run .start hrun, hret, ?_⟩
  rintro ⟨ps, -, -, hall⟩
  have hnil : ps.flatMap σ.held = [] := List.flatMap_eq_nil_iff.mpr fun p _ => hheld p
  rw [hnil, List.append_nil] at hall
  exact hfed hall

end Aurisys
