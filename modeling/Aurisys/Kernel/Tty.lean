import Aurisys.Kernel.Task
import Aurisys.Lib.Ring

/-!
# The terminal

Bytes that come in from the keyboard or the line go through `tty_input` into a circular buffer, one
at a time, and `tty_take` moves them to a reader. Two positions and no count say how full the buffer
is, so 255 bytes fit.

A process that has waited comes back with interrupts on, and `tty_drain` runs on a tick too. So the
`tty_input` that a reader calls is also given here store by store: `Tty.feed` is what it does up to
its first store into the buffer, and `Tty.Rest` what is left then.

The screen is a list of what was echoed to it, and the interrupts that were sent are a list of
process numbers.

## Main definitions

* `Tty`, `Tty.input`
* `Tty.feed`, `Tty.Rest.next` — the same in pieces
* `Tty.next` — how `tty_take` passes a byte
* `Tty.scan` — what a turn of the loop in `dev_tty_rd` returns
* `Tty.contents` — the buffer as a queue

## Main results

* `Tty.input_eq_feed` — with nothing in between, the pieces are `tty_input`
* `Tty.contents_stored`, `Tty.contents_unput`, `Tty.contents_next`
* `Tty.input_ordinary`, `Tty.input_del`
-/

namespace Aurisys

def kTtyBuf : ℕ := 256

def kTtyCanon : UInt32 := 0x01

def kTtyEcho : UInt32 := 0x02

def kTtySig : UInt32 := 0x04

/-- The newline. -/
def nl : UInt8 := 0x0A

/-- The erase character. -/
def del : UInt8 := 0x7F

/-- `g_tty` and `g_tty_nonblock`, and what became of the bytes that were echoed and the interrupts
that were sent. -/
structure Tty where
  buf : ℕ → UInt8
  /-- Where the next byte goes. -/
  head : ℕ
  /-- Where the next byte is taken from. -/
  tail : ℕ
  flags : UInt32
  /-- The process an interrupt is sent to. -/
  owner : ℕ
  eof : Bool
  nonblock : Bool
  screen : List UInt8
  interrupted : List ℕ

namespace Tty

def canon (t : Tty) : Bool := t.flags &&& kTtyCanon ≠ 0

def echoes (t : Tty) : Bool := t.flags &&& kTtyEcho ≠ 0

def sigs (t : Tty) : Bool := t.flags &&& kTtySig ≠ 0

/-- `tty_buffered`. -/
def buffered (t : Tty) : Bool := t.head ≠ t.tail

/-- `tty_count`. -/
def count (t : Tty) : ℕ := (t.head + kTtyBuf - t.tail) % kTtyBuf

/-- `tty_put`. -/
def put (t : Tty) (c : UInt8) : Tty :=
  if kTtyBuf ≤ t.count + 1 then t
  else { t with buf := Function.update t.buf t.head c, head := (t.head + 1) % kTtyBuf }

/-- `tty_drop`. -/
def drop (t : Tty) : Tty := { t with head := t.tail }

/-- `tty_echo`, if the terminal echoes at all. -/
def echo (t : Tty) (s : List UInt8) : Tty :=
  if t.echoes then { t with screen := t.screen ++ s } else t

/-- What an interrupt character does: the process is the owner, or else the one that runs. -/
def interrupt (t : Tty) (cur : ℕ) : Tty :=
  let t := t.drop.echo [0x5E, 0x43, 0x0D, 0x0A]
  let pid := if t.owner ≠ 0 then t.owner else cur
  if pid ≠ 0 then { t with interrupted := t.interrupted ++ [pid] } else t

/-- What the end of file character does. -/
def endFile (t : Tty) : Tty :=
  if t.buffered then (t.put 0x04).echo [0x04] else { t with eof := true }

/-- What the erase character does. -/
def erase (t : Tty) : Tty :=
  if t.buffered then
    { t with head := (t.head + kTtyBuf - 1) % kTtyBuf }.echo [0x08, 0x20, 0x08]
  else t

/-- What is echoed for a byte that was put. -/
def echoOf (c : UInt8) : List UInt8 :=
  if c = nl then [0x0D, nl]
  else if c = 0x09 then [0x09]
  else if c < 0x20 then [0x07]
  else [c]

/-- A carriage return is a newline. -/
def crnl (c : UInt8) : UInt8 := if c = 0x0D then nl else c

/-- `tty_input`, with the number of the process that runs, `0` if there is none. -/
def input (t : Tty) (cur : ℕ) (c : UInt8) : Tty :=
  if c = 0x03 ∧ t.sigs then t.interrupt cur
  else if c = 0x04 ∧ t.canon then t.endFile
  else if c = del ∧ t.canon then t.erase
  else
    let c := if t.canon then crnl c else c
    (t.put c).echo (echoOf c)

/-! ## In pieces -/

/-- What is left of a `tty_input` that has come to its stores into the buffer. -/
inductive Rest where
  /-- `tty_put` of `c`, for which there is room, and the echo `e`. -/
  | put (c : UInt8) (e : List UInt8)
  /-- The byte is in its place, and `head` is to pass it. -/
  | stored (c : UInt8) (e : List UInt8)
  /-- `head` is to go back by one. -/
  | erase
deriving DecidableEq

/-- `tty_put` and the echo, up to the store. -/
def startPut (t : Tty) (c : UInt8) (e : List UInt8) : Tty × Option Rest :=
  if kTtyBuf ≤ t.count + 1 then (t.echo e, none) else (t, some (.put c e))

/-- `tty_input` up to its first store into the buffer. Only `head` is stored by an interrupt
character, which is one step here. -/
def feed (t : Tty) (cur : ℕ) (c : UInt8) : Tty × Option Rest :=
  if c = 0x03 ∧ t.sigs then (t.interrupt cur, none)
  else if c = 0x04 ∧ t.canon then
    if t.buffered then t.startPut 0x04 [0x04] else ({ t with eof := true }, none)
  else if c = del ∧ t.canon then
    if t.buffered then (t, some .erase) else (t, none)
  else
    let c := if t.canon then crnl c else c
    t.startPut c (echoOf c)

/-- One store, and the echo with the last of them. -/
def Rest.next (t : Tty) : Rest → Tty × Option Rest
  | .put c e => ({ t with buf := Function.update t.buf t.head c }, some (.stored c e))
  | .stored _ e => ({ t with head := (t.head + 1) % kTtyBuf }.echo e, none)
  | .erase => ({ t with head := (t.head + kTtyBuf - 1) % kTtyBuf }.echo [0x08, 0x20, 0x08], none)

/-- All that is left, with nothing in between. -/
def Rest.finish (t : Tty) : Rest → Tty
  | .put c e => (Rest.next (Rest.next t (.put c e)).1 (.stored c e)).1
  | r => (r.next t).1

/-- **In one go**, the pieces are `tty_input`. -/
theorem input_eq_feed (t : Tty) (cur : ℕ) (c : UInt8) :
    t.input cur c = (t.feed cur c).2.elim (t.feed cur c).1 (Rest.finish (t.feed cur c).1) := by
  have hput : ∀ c e, (t.put c).echo e =
      (t.startPut c e).2.elim (t.startPut c e).1 (Rest.finish (t.startPut c e).1) := by
    intro c e
    rw [put, startPut]
    split <;> rfl
  rw [input, feed]
  split
  · rfl
  · split
    · rw [endFile]
      split
      · exact hput _ _
      · rfl
    · split
      · rw [erase]
        split <;> rfl
      · exact hput _ _

/-! ## Reading -/

/-- `tty_take` passes the byte that it has copied. -/
def next (t : Tty) : Tty := { t with tail := (t.tail + 1) % kTtyBuf }

/-- The loop in `dev_tty_rd` behind `tty_take`, of a call for `len` bytes that has `out`: what it
returns, if it does. -/
def scan (t : Tty) (len : ℕ) (out : List UInt8) : Option (List UInt8) × Tty :=
  if out ≠ [] ∧ ¬t.canon then (some out, t)
  else
    match out.findIdx? (· = nl) with
    | some i => (some (out.take (i + 1)), t)
    | none =>
      if out ≠ [] ∧ len ≤ out.length then (some out, t)
      else if t.eof then (some out, { t with eof := false })
      else if t.nonblock then (some out, t)
      else (none, t)

/-! ## The buffer -/

/-- The buffer as a queue. -/
def ring (t : Tty) : Ring UInt8 := .ofPositions kTtyBuf t.buf t.head t.tail

/-- What is in it, oldest first. -/
def contents (t : Tty) : List UInt8 := t.ring.contents kTtyBuf

/-- Both positions are in the buffer. -/
structure WF (t : Tty) : Prop where
  /-- Where the next byte goes. -/
  head_lt : t.head < kTtyBuf
  /-- Where the next byte is taken from. -/
  tail_lt : t.tail < kTtyBuf

variable {t : Tty}

theorem length_contents (t : Tty) : t.contents.length = t.count := Ring.length_contents _

theorem WF.ring (h : t.WF) : t.ring.WF kTtyBuf := Ring.wf_ofPositions h.head_lt h.tail_lt

theorem WF.buffered (h : t.WF) : t.buffered ↔ t.contents ≠ [] := by
  have hn : t.count = 0 ↔ t.head = t.tail :=
    @Ring.ofPositions_n_eq_zero_iff _ _ t.buf _ _ h.head_lt h.tail_lt
  rw [← List.length_pos_iff, Nat.pos_iff_ne_zero, ne_eq, length_contents, hn, Tty.buffered,
    decide_eq_true_iff]

/-- There is room for a byte just when there are fewer than 255. -/
theorem full_iff (t : Tty) : kTtyBuf ≤ t.count + 1 ↔ ¬t.contents.length < 255 := by
  rw [length_contents, kTtyBuf]
  omega

theorem WF.put (h : t.WF) (c : UInt8) : (t.put c).WF := by
  rw [Tty.put]
  split
  · exact h
  · exact ⟨Nat.mod_lt _ (by decide), h.tail_lt⟩

theorem WF.unput (h : t.WF) : { t with head := (t.head + kTtyBuf - 1) % kTtyBuf }.WF :=
  ⟨Nat.mod_lt _ (by decide), h.tail_lt⟩

theorem WF.next (h : t.WF) : t.next.WF := ⟨h.head_lt, Nat.mod_lt _ (by decide)⟩

/-- **The first store of `tty_put`** is where nothing is. -/
theorem contents_store (h : t.WF) (c : UInt8) :
    { t with buf := Function.update t.buf t.head c }.contents = t.contents :=
  Ring.contents_store h.ring (Ring.ofPositions_n_lt h.head_lt h.tail_lt) c

/-- **The second** adds what is there. -/
theorem contents_stored (h : t.WF) (hroom : t.contents.length < 255) :
    { t with head := (t.head + 1) % kTtyBuf }.contents = t.contents ++ [t.buf t.head] := by
  have hne : (t.head + 1) % kTtyBuf ≠ t.tail := by
    intro he
    rw [length_contents, count, ← he] at hroom
    have := h.head_lt
    simp only [kTtyBuf] at *
    omega
  rw [contents, ring, Ring.ofPositions_stored h.head_lt h.tail_lt hne]
  exact Ring.contents_stored h.ring

/-- **`tty_put`** while there is room. -/
theorem contents_put (h : t.WF) (hroom : t.contents.length < 255) (c : UInt8) :
    (t.put c).contents = t.contents ++ [c] := by
  set u : Tty := { t with buf := Function.update t.buf t.head c } with hu
  have hwf : u.WF := ⟨h.head_lt, h.tail_lt⟩
  have hcont : u.contents = t.contents := contents_store h c
  have hput : t.put c = { u with head := (u.head + 1) % kTtyBuf } :=
    if_neg (not_not.mpr hroom ∘ (full_iff t).mp)
  rw [hput, contents_stored hwf (hcont ▸ hroom), hcont]
  exact congrArg (_ ++ [·]) (Function.update_self _ _ _)

/-- **Erasing** takes back the newest byte. -/
theorem contents_unput (h : t.WF) (hne : t.contents ≠ []) :
    { t with head := (t.head + kTtyBuf - 1) % kTtyBuf }.contents = t.contents.dropLast := by
  have hpos : t.head ≠ t.tail := by simpa [Tty.buffered] using h.buffered.mpr hne
  rw [contents, ring, Ring.ofPositions_unput h.head_lt h.tail_lt hpos]
  exact Ring.contents_unput _

/-- **Passing** takes away the oldest byte. -/
theorem contents_next (h : t.WF) (hne : t.contents ≠ []) :
    t.contents = t.buf t.tail :: t.next.contents := by
  have hpos : t.head ≠ t.tail := by simpa [Tty.buffered] using h.buffered.mpr hne
  have hn : t.ring.n ≠ 0 := mt (Ring.ofPositions_n_eq_zero_iff h.head_lt h.tail_lt).mp hpos
  have hnext : t.next.ring = (t.ring.take kTtyBuf).2 :=
    Ring.ofPositions_take h.head_lt h.tail_lt hpos
  rw [contents, contents, hnext]
  exact Ring.contents_take h.ring hn

/-- Only the two positions and what they bound have changed. -/
structure Moved (t t' : Tty) : Prop where
  flags : t'.flags = t.flags
  eof : t'.eof = t.eof
  nonblock : t'.nonblock = t.nonblock

theorem Moved.canon {t' : Tty} (h : Moved t t') : t'.canon = t.canon := by
  rw [Tty.canon, Tty.canon, h.flags]

theorem moved_put (t : Tty) (c : UInt8) : Moved t (t.put c) := by
  rw [put]
  split <;> exact ⟨rfl, rfl, rfl⟩

@[simp] theorem contents_echo (t : Tty) (s : List UInt8) : (t.echo s).contents = t.contents := by
  rw [echo]
  split <;> rfl

theorem WF.echo (h : t.WF) (s : List UInt8) : (t.echo s).WF := by
  rw [Tty.echo]
  split
  · exact ⟨h.head_lt, h.tail_lt⟩
  · exact h

theorem moved_echo (t : Tty) (s : List UInt8) : Moved t (t.echo s) := by
  rw [echo]
  split <;> exact ⟨rfl, rfl, rfl⟩

theorem Moved.trans {t₁ t₂ t₃ : Tty} (h : Moved t₁ t₂) (h' : Moved t₂ t₃) : Moved t₁ t₃ :=
  ⟨h'.flags.trans h.flags, h'.eof.trans h.eof, h'.nonblock.trans h.nonblock⟩

/-- A byte that does nothing but go into the buffer. -/
def Ordinary (t : Tty) (c : UInt8) : Prop := c ≠ 0x04 ∧ c ≠ del ∧ (c = 0x03 → ¬t.sigs)

instance (t : Tty) (c : UInt8) : Decidable (t.Ordinary c) :=
  inferInstanceAs (Decidable (_ ∧ _ ∧ _))

/-- **`tty_input`** of such a byte, in canonical mode. -/
theorem input_ordinary (h : t.WF) (hcanon : t.canon) {c : UInt8} (hc : t.Ordinary c)
    (hroom : t.contents.length < 255) (cur : ℕ) :
    (t.input cur c).contents = t.contents ++ [crnl c] ∧ (t.input cur c).WF ∧
      Moved t (t.input cur c) := by
  have hsig : ¬(c = 0x03 ∧ t.sigs) := fun hs => hc.2.2 hs.1 hs.2
  have heof : ¬(c = 0x04 ∧ t.canon) := fun hs => hc.1 hs.1
  have hdel : ¬(c = del ∧ t.canon) := fun hs => hc.2.1 hs.1
  rw [input, if_neg hsig, if_neg heof, if_neg hdel, if_pos hcanon]
  refine ⟨?_, (h.put _).echo _, (t.moved_put _).trans (moved_echo _ _)⟩
  dsimp only
  rw [contents_echo, contents_put h hroom]

/-- **`tty_input`** of an erase character, in canonical mode. -/
theorem input_del (h : t.WF) (hcanon : t.canon) (cur : ℕ) :
    (t.input cur del).contents = t.contents.dropLast ∧ (t.input cur del).WF ∧
      Moved t (t.input cur del) := by
  rw [input, if_neg (by simp [del]), if_neg (by simp [del]), if_pos ⟨rfl, hcanon⟩, erase]
  by_cases hb : t.buffered
  · rw [if_pos hb, contents_echo, contents_unput h (h.buffered.mp hb)]
    have hmoved : Moved t { t with head := (t.head + kTtyBuf - 1) % kTtyBuf } := ⟨rfl, rfl, rfl⟩
    exact ⟨rfl, h.unput.echo _, hmoved.trans (moved_echo _ _)⟩
  · have hnil : t.contents = [] := by
      by_contra hne
      exact hb (h.buffered.mpr hne)
    rw [if_neg hb, hnil]
    exact ⟨rfl, h, rfl, rfl, rfl⟩

/-! ## In pieces again -/

/-- What the buffer has when the rest is done. -/
def Rest.settle : Rest → List UInt8 → List UInt8
  | .put c _, l | .stored c _, l => l ++ [c]
  | .erase, l => l.dropLast

/-- Nothing has come in between so far. -/
def Rest.Fits (t : Tty) : Rest → Prop
  | .put _ _ => t.contents.length < 255
  | .stored c _ => t.contents.length < 255 ∧ t.buf t.head = c
  | .erase => t.contents ≠ []

/-- **A store** brings the buffer nearer to what it will have. -/
theorem Rest.next_spec (h : t.WF) {r : Rest} (hr : r.Fits t) :
    (r.next t).1.WF ∧ Moved t (r.next t).1 ∧ (∀ r' ∈ (r.next t).2, r'.Fits (r.next t).1) ∧
      (r.next t).2.elim (r.next t).1.contents (·.settle (r.next t).1.contents) =
        r.settle t.contents := by
  cases r with
  | put c e =>
    have hcont := contents_store h c
    refine ⟨⟨h.head_lt, h.tail_lt⟩, ⟨rfl, rfl, rfl⟩, fun r' hr' => ?_, congrArg (· ++ [c]) hcont⟩
    obtain rfl := Option.some.inj hr'
    exact ⟨by rw [Rest.next, hcont]; exact hr, Function.update_self _ _ _⟩
  | stored c e =>
    set u : Tty := { t with head := (t.head + 1) % kTtyBuf } with hu
    have hwf : u.WF := ⟨Nat.mod_lt _ (by decide), h.tail_lt⟩
    have hmoved : Moved t u := ⟨rfl, rfl, rfl⟩
    refine ⟨hwf.echo e, hmoved.trans (moved_echo u e), nofun, ?_⟩
    change (u.echo e).contents = t.contents ++ [c]
    rw [contents_echo, contents_stored h hr.1, hr.2]
  | erase =>
    set u : Tty := { t with head := (t.head + kTtyBuf - 1) % kTtyBuf } with hu
    have hmoved : Moved t u := ⟨rfl, rfl, rfl⟩
    refine ⟨h.unput.echo _, hmoved.trans (moved_echo u _), nofun, ?_⟩
    change (u.echo _).contents = t.contents.dropLast
    rw [contents_echo, contents_unput h hr]

/-- **A reader's `tty_input`** of an ordinary byte comes to its stores. -/
theorem feed_ordinary (hcanon : t.canon) {c : UInt8} (hc : t.Ordinary c)
    (hroom : t.contents.length < 255) (cur : ℕ) :
    t.feed cur c = (t, some (.put (crnl c) (echoOf (crnl c)))) := by
  have hsig : ¬(c = 0x03 ∧ t.sigs) := fun hs => hc.2.2 hs.1 hs.2
  have heof : ¬(c = 0x04 ∧ t.canon) := fun hs => hc.1 hs.1
  have hdel : ¬(c = del ∧ t.canon) := fun hs => hc.2.1 hs.1
  rw [feed, if_neg hsig, if_neg heof, if_neg hdel, if_pos hcanon, startPut,
    if_neg (not_not.mpr hroom ∘ (full_iff t).mp)]

/-- Of an erase character, if there is something to erase. -/
theorem feed_del (hcanon : t.canon) (cur : ℕ) :
    t.feed cur del = (t, if t.buffered then some .erase else none) := by
  rw [feed, if_neg (by simp [del]), if_neg (by simp [del]), if_pos ⟨rfl, hcanon⟩]
  split <;> rfl

/-- **If a newline can only be the last** of what the call has, all of it is returned or none. -/
theorem scan_of_last (hcanon : t.canon) (heof : t.eof = false) {len : ℕ} {out : List UInt8}
    (hlast : nl ∉ out.dropLast) :
    t.scan len out =
      (if nl ∈ out ∨ (out ≠ [] ∧ len ≤ out.length) ∨ t.nonblock then some out else none, t) := by
  rw [scan, if_neg (by simp [hcanon])]
  by_cases hmem : nl ∈ out
  · have hout : out = out.dropLast ++ [nl] := by
      have hne := List.ne_nil_of_mem hmem
      rw [← List.dropLast_append_getLast hne] at hmem
      have hl : nl = out.getLast hne :=
        List.mem_singleton.mp ((List.mem_append.mp hmem).resolve_left hlast)
      rw [hl]
      exact (List.dropLast_append_getLast hne).symm
    have hidx : out.findIdx? (· = nl) = some out.dropLast.length := by
      rw [hout, List.findIdx?_append, List.findIdx?_eq_none_iff.mpr]
      · simp
      · intro x hx
        have : x ≠ nl := fun hxn => hlast (by rw [hout]; simpa [hxn] using hx)
        simpa using this
    have hlen : out.length = out.dropLast.length + 1 := by
      rw [List.length_dropLast]
      have := List.length_pos_iff.mpr (List.ne_nil_of_mem hmem)
      omega
    rw [hidx, if_pos (Or.inl hmem)]
    exact congrArg (fun l => (some l, t)) (List.take_of_length_le hlen.le)
  · have hidx : out.findIdx? (· = nl) = none := by
      rw [List.findIdx?_eq_none_iff]
      intro x hx
      have : x ≠ nl := fun hxn => hmem (hxn ▸ hx)
      simpa using this
    rw [hidx]
    by_cases hlen : out ≠ [] ∧ len ≤ out.length
    · simp only [hlen, hmem, ne_eq, not_false_eq_true, and_self, ↓reduceIte, true_or, or_true]
    · simp only [hlen, hmem, heof, ↓reduceIte, false_or, Bool.false_eq_true]
      split <;> rfl

end Tty

end Aurisys
