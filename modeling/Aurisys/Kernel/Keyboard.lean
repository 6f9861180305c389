import Aurisys.Lib.Ring

/-!
# The keyboard

An interrupt puts a scancode into a ring of 128 bytes. `poll` takes one and makes a key of it, or
nothing, and `poll_char` hands out one byte at a time: the key, or a sequence of bytes if the key
has no character.

`poll_char` chooses the sequence and counts its bytes, and hands out those of `g_seq`, where nothing
was ever stored. So a special key becomes as many zeroes as its sequence is long.

## Main definitions

* `Kbd`, `Kbd.irq`, `Kbd.poll`, `Kbd.pollChar`
* `Kbd.keys` — the keys of a stream of scancodes
* `Kbd.encode` — the bytes of a key
* `Kbd.Run.Faithful` — what was handed out is what the keys are

## Main results

* `Kbd.polled_loop` — a call takes one key
* `Kbd.Run.Inv.step`
* `Kbd.faithful_iff`
-/

namespace Aurisys

namespace Kbd

/-! ## Keys -/

/-- `KEY_UP` and the keys that follow it in the enumeration. -/
def keyUp : ℤ := 0x101

def keyDown : ℤ := 0x102

def keyLeft : ℤ := 0x103

def keyRight : ℤ := 0x104

def keyHome : ℤ := 0x105

def keyEnd : ℤ := 0x106

def keyPgUp : ℤ := 0x107

def keyPgDn : ℤ := 0x108

def keyDel : ℤ := 0x109

def keyIns : ℤ := 0x10A

/-- `kScan`, from the digits on, and zeroes behind the space. -/
def kScan : List UInt8 :=
  [0, 0, 0x31, 0x32, 0x33, 0x34, 0x35, 0x36, 0x37, 0x38, 0x39, 0x30, 0x2D, 0x3D, 0, 0,
    0x71, 0x77, 0x65, 0x72,
    0x74, 0x79, 0x75, 0x69, 0x6F, 0x70, 0x5B, 0x5D, 0, 0, 0x61, 0x73, 0x64, 0x66, 0x67,
    0x68, 0x6A, 0x6B, 0x6C,
    0x3B, 0x27, 0x60, 0, 0x5C, 0x7A, 0x78, 0x63, 0x76, 0x62, 0x6E, 0x6D, 0x2C, 0x2E,
    0x2F, 0, 0x2A, 0, 0x20]

/-- `kShift`. -/
def kShift : List UInt8 :=
  [0, 0, 0x21, 0x40, 0x23, 0x24, 0x25, 0x5E, 0x26, 0x2A, 0x28, 0x29, 0x5F, 0x2B, 0, 0,
    0x51, 0x57, 0x45, 0x52,
    0x54, 0x59, 0x55, 0x49, 0x4F, 0x50, 0x7B, 0x7D, 0, 0, 0x41, 0x53, 0x44, 0x46, 0x47,
    0x48, 0x4A, 0x4B, 0x4C,
    0x3A, 0x22, 0x7E, 0, 0x7C, 0x5A, 0x58, 0x43, 0x56, 0x42, 0x4E, 0x4D, 0x3C, 0x3E,
    0x3F, 0, 0x2A, 0, 0x20]

/-- `key_of`. -/
def keyOf (sc : UInt8) : ℤ :=
  match sc with
  | 0x47 => keyHome
  | 0x48 => keyUp
  | 0x49 => keyPgUp
  | 0x4B => keyLeft
  | 0x4D => keyRight
  | 0x4F => keyEnd
  | 0x50 => keyDown
  | 0x51 => keyPgDn
  | 0x52 => keyIns
  | 0x53 => keyDel
  | _ => -2

/-- `g_shift`, `g_ctrl` and `g_ext`. -/
structure Mods where
  shift : Bool
  ctrl : Bool
  ext : Bool

/-- The end of `poll`, where a key is down. -/
def typed (m : Mods) (sc : UInt8) : ℤ :=
  if m.ctrl ∧ sc = 0x0E then 0x7F
  else if m.ctrl ∧ sc = 0x2E then 0x03
  else if sc = 0x0E then 0x08
  else if sc = 0x1C then 0x0A
  else if sc = 0x0F then 0x09
  else if sc = 0x2A ∨ sc = 0x36 then -2
  else if 0x47 ≤ sc ∧ sc ≤ 0x53 then keyOf sc
  else if 96 ≤ sc then -2
  else
    let c := kScan.getD sc.toNat 0
    if c = 0 then -2 else if m.shift then (kShift.getD sc.toNat 0).toNat else c.toNat

/-- The modifiers that are held down after a scancode. -/
def held (m : Mods) (sc : UInt8) : Mods :=
  if sc = 0x2A ∨ sc = 0x36 then { m with shift := true }
  else if sc = 0xAA ∨ sc = 0xB6 then { m with shift := false }
  else if sc = 0x1D then { m with ctrl := true }
  else if sc = 0x9D then { m with ctrl := false }
  else m

/-- What `poll` makes of a scancode: a key, or -2 for none. -/
def decode (m : Mods) (sc : UInt8) : ℤ × Mods :=
  if sc = 0xE0 then (-2, { m with ext := true })
  else if m.ext then
    (if sc &&& 0x80 ≠ 0 then -2 else if 0x47 ≤ sc ∧ sc ≤ 0x53 then keyOf sc
      else -2, { m with ext := false })
  else
    -- Some other key that is released is ignored.
    (if sc &&& 0x80 ≠ 0 ∧ ¬(sc = 0xAA ∨ sc = 0xB6 ∨ sc = 0x9D) then -2
      else typed (held m sc) sc, held m sc)

/-- The keys with a sequence. -/
def Special (key : ℤ) : Prop := keyUp ≤ key ∧ key ≤ keyIns

instance (key : ℤ) : Decidable (Special key) := inferInstanceAs (Decidable (_ ∧ _))

/-- The table in `poll_char`. -/
def vtSequence (key : ℤ) : List UInt8 :=
  if key = keyUp then [0x1B, 0x5B, 0x41]
  else if key = keyDown then [0x1B, 0x5B, 0x42]
  else if key = keyRight then [0x1B, 0x5B, 0x43]
  else if key = keyLeft then [0x1B, 0x5B, 0x44]
  else if key = keyHome then [0x1B, 0x5B, 0x48]
  else if key = keyEnd then [0x1B, 0x5B, 0x46]
  else if key = keyDel then [0x1B, 0x5B, 0x33, 0x7E]
  else if key = keyPgUp then [0x1B, 0x5B, 0x35, 0x7E]
  else if key = keyPgDn then [0x1B, 0x5B, 0x36, 0x7E]
  else [0x1B, 0x5B, 0x32, 0x7E]

end Kbd

/-! ## The driver -/

def kKbdBuf : ℕ := 128

/-- The variables of the driver. -/
structure Kbd where
  buf : ℕ → UInt8
  head : ℕ
  tail : ℕ
  mods : Kbd.Mods
  /-- The sequence that is part delivered. -/
  seq : ℕ → UInt8
  seqn : ℕ
  seqout : ℕ

namespace Kbd

/-- The variables when the kernel starts. -/
def powerOn : Kbd := ⟨fun _ => 0, 0, 0, ⟨false, false, false⟩, fun _ => 0, 0, 0⟩

/-- `irq_handler`: whether there was room, and what is in the buffer. -/
def irq (k : Kbd) (sc : UInt8) : Bool × Kbd :=
  if (k.head + 1) % kKbdBuf = k.tail then (false, k)
  else (true, { k with buf := Function.update k.buf k.head sc, head := (k.head + 1) % kKbdBuf })

def poll (k : Kbd) : ℤ × Kbd :=
  if k.head = k.tail then (-1, k)
  else
    let (key, m) := decode k.mods (k.buf k.tail)
    (key, { k with tail := (k.tail + 1) % kKbdBuf, mods := m })

/-- The loop of `poll_char`. -/
def pollLoop : ℕ → Kbd → ℤ × Kbd
  | 0, k => (-1, k)
  | fuel + 1, k =>
    let (key, k) := poll k
    if key = -1 then (-1, k)
    else if key = -2 then pollLoop fuel k
    else if Special key then ((k.seq 0).toNat,
      { k with seqn := (vtSequence key).length, seqout := 1 })
    else (key, k)

/-- `poll_char`. There are 127 scancodes at most to loop over. -/
def pollChar (k : Kbd) : ℤ × Kbd :=
  if k.seqout < k.seqn then ((k.seq k.seqout).toNat, { k with seqout := k.seqout + 1 })
  else pollLoop kKbdBuf k

/-! ## Streams -/

/-- The modifiers after some scancodes. -/
def modsAfter (m : Mods) (l : List UInt8) : Mods := l.foldl (fun m sc => (decode m sc).2) m

/-- **The keys of some scancodes.** -/
def keys (m : Mods) : List UInt8 → List ℤ
  | [] => []
  | sc :: l =>
    let d := decode m sc
    if d.1 = -2 then keys d.2 l else d.1 :: keys d.2 l

/-- **The bytes of a key.** -/
def encode (key : ℤ) : List ℤ :=
  if Special key then (vtSequence key).map fun b => (b.toNat : ℤ) else [key]

/-- What happens to the driver. -/
inductive Event
  | irq (sc : UInt8)
  | pollChar

/-- The driver, the scancodes it had room for, and the bytes it has handed out. -/
structure Run where
  kbd : Kbd
  accepted : List UInt8
  out : List ℤ

def Run.step (r : Run) : Event → Run
  | .irq sc =>
    let (room, k) := r.kbd.irq sc
    ⟨k, if room then r.accepted ++ [sc] else r.accepted, r.out⟩
  | .pollChar =>
    let (b, k) := r.kbd.pollChar
    ⟨k, r.accepted, if b = -1 then r.out else r.out ++ [b]⟩

/-- Some events after the kernel has started. -/
def Run.after (es : List Event) : Run := es.foldl Run.step ⟨powerOn, [], []⟩

/-- How many scancodes are in the buffer. -/
def count (k : Kbd) : ℕ := (k.head + kKbdBuf - k.tail) % kKbdBuf

/-- The scancodes that have been taken from the buffer. -/
def Run.taken (r : Run) : List UInt8 := r.accepted.take (r.accepted.length - r.kbd.count)

/-- **What has been handed out is what the keys are**, as far as it goes, and all of it when
`poll_char` has nothing more. -/
def Run.Faithful (r : Run) : Prop :=
  r.out <+: (keys powerOn.mods r.accepted).flatMap encode ∧
    (r.kbd.pollChar.1 = -1 → r.out = (keys powerOn.mods r.accepted).flatMap encode)

/-! ## The buffer -/

variable {k k' : Kbd} {m : Mods} {sc : UInt8} {l l₁ l₂ : List UInt8} {fuel : ℕ} {r : Run}

def ring (k : Kbd) : Ring UInt8 := .ofPositions kKbdBuf k.buf k.head k.tail

/-- The scancodes in the buffer, oldest first. -/
def contents (k : Kbd) : List UInt8 := k.ring.contents kKbdBuf

/-- Both positions are in the buffer. -/
structure WF (k : Kbd) : Prop where
  head_lt : k.head < kKbdBuf
  tail_lt : k.tail < kKbdBuf

theorem length_contents (k : Kbd) : k.contents.length = k.count := Ring.length_contents k.ring

theorem WF.ring_n_iff (h : k.WF) : k.ring.n = 0 ↔ k.head = k.tail :=
  Ring.ofPositions_n_eq_zero_iff h.head_lt h.tail_lt

theorem WF.ring_n_lt (h : k.WF) : k.ring.n < kKbdBuf := Ring.ofPositions_n_lt h.head_lt h.tail_lt

theorem WF.contents_nil_iff (h : k.WF) : k.contents = [] ↔ k.head = k.tail := by
  rw [← List.length_eq_zero_iff, contents, Ring.length_contents, h.ring_n_iff]

theorem WF.length_lt (h : k.WF) : k.contents.length < kKbdBuf := by
  rw [contents, Ring.length_contents]
  exact h.ring_n_lt

/-- **An interrupt** with room in the buffer. -/
theorem WF.irq (h : k.WF) (hroom : (k.irq sc).1 = true) :
    (k.irq sc).2.contents = k.contents ++ [sc] := by
  rw [Kbd.irq] at hroom ⊢
  split at hroom
  · exact absurd hroom Bool.false_ne_true
  · next hne =>
    rw [if_neg hne, contents, contents, ring, Ring.ofPositions_put h.head_lt h.tail_lt hne]
    exact Ring.contents_put (Ring.wf_ofPositions h.head_lt h.tail_lt) h.ring_n_lt sc

theorem WF.after_irq (h : k.WF) (sc : UInt8) : (k.irq sc).2.WF := by
  rw [Kbd.irq]
  split
  · exact h
  · exact ⟨Nat.mod_lt _ (by decide), h.tail_lt⟩

/-- The driver after scancodes were taken from the buffer. -/
structure Took (k : Kbd) (l : List UInt8) (k' : Kbd) : Prop where
  wf : k'.WF
  /-- These bytes are gone, from the front. -/
  contents : k.contents = l ++ k'.contents
  /-- The modifiers are those after them. -/
  mods : k'.mods = modsAfter k.mods l
  /-- Nothing was written to `g_seq`. -/
  seq : k'.seq = k.seq

/-- **`poll`** takes a scancode if there is one. -/
theorem WF.poll (h : k.WF) (hne : k.contents ≠ []) : ∃ sc, k.poll.1 = (decode k.mods sc).1 ∧
    Took k [sc] k.poll.2 ∧ k.poll.2.seqn = k.seqn ∧ k.poll.2.seqout = k.seqout := by
  have hpos : k.head ≠ k.tail := fun he => hne (h.contents_nil_iff.mpr he)
  have hn : k.ring.n ≠ 0 := fun he => hpos (h.ring_n_iff.mp he)
  rw [Kbd.poll, if_neg hpos]
  refine ⟨k.buf k.tail, rfl, ⟨⟨h.head_lt, Nat.mod_lt _ (by decide)⟩, ?_, rfl, rfl⟩, rfl, rfl⟩
  have htake := Ring.contents_take (Ring.wf_ofPositions h.head_lt h.tail_lt) hn
  rw [← Ring.ofPositions_take h.head_lt h.tail_lt hpos] at htake
  exact htake

theorem WF.poll_nil (h : k.WF) (hnil : k.contents = []) : k.poll = (-1, k) := by
  rw [Kbd.poll, if_pos (h.contents_nil_iff.mp hnil)]

theorem modsAfter_append (m : Mods) (l₁ l₂ : List UInt8) :
    modsAfter m (l₁ ++ l₂) = modsAfter (modsAfter m l₁) l₂ := List.foldl_append ..

theorem keys_append (m : Mods) (l₁ l₂ : List UInt8) :
    keys m (l₁ ++ l₂) = keys m l₁ ++ keys (modsAfter m l₁) l₂ := by
  induction l₁ generalizing m with
  | nil => rfl
  | cons sc l₁ ih =>
    simp only [List.cons_append, keys, ih]
    split
    · rfl
    · rfl

theorem Took.trans {k₁ k₂ k₃ : Kbd} (h₁ : Took k₁ l₁ k₂) (h₂ : Took k₂ l₂ k₃) :
    Took k₁ (l₁ ++ l₂) k₃ where
  wf := h₂.wf
  contents := by rw [h₁.contents, h₂.contents, List.append_assoc]
  mods := by rw [h₂.mods, h₁.mods, modsAfter_append]
  seq := h₂.seq.trans h₁.seq

theorem Took.refl (h : k.WF) : Took k [] k := ⟨h, rfl, rfl, rfl⟩

theorem keyOf_ne (sc : UInt8) : keyOf sc ≠ -1 := by
  unfold keyOf
  split <;> decide

theorem typed_ne (m : Mods) (sc : UInt8) : typed m sc ≠ -1 := by
  rw [typed]
  split_ifs
  all_goals first | decide | exact keyOf_ne sc | (simp only; split_ifs <;> omega)

/-- A key is never what `poll` says when there is nothing. -/
theorem decode_ne (m : Mods) (sc : UInt8) : (decode m sc).1 ≠ -1 := by
  have hnone : (-2 : ℤ) ≠ -1 := by decide
  rw [decode]
  split_ifs
  · exact hnone
  · exact hnone
  · exact keyOf_ne sc
  · exact hnone
  · exact hnone
  · exact typed_ne (held m sc) sc

/-! ## A call -/

/-- What `poll_char` has done when no sequence was part delivered: there was no key in the buffer,
or it has taken the first one. -/
inductive Polled (k : Kbd) : ℤ × Kbd → Prop
  | dry (l : List UInt8) (k' : Kbd) (took : Took k l k') (nil : k'.contents = [])
    (none : keys k.mods l = [])
      (still : k'.seqn = k.seqn ∧ k'.seqout = k.seqout) : Polled k (-1, k')
  | plain (l : List UInt8) (key : ℤ) (k' : Kbd) (took : Took k l k') (one : keys k.mods l = [key])
      (ordinary : ¬Special key) (ne : key ≠ -1) (still : k'.seqn = k.seqn ∧ k'.seqout = k.seqout) :
      Polled k (key, k')
  | special (l : List UInt8) (key : ℤ) (k' : Kbd) (took : Took k l k') (one : keys k.mods l = [key])
      (special : Special key) : Polled k ((k.seq 0).toNat, k')

theorem Polled.of_took {k k₁ : Kbd} {p : ℤ × Kbd} (ht : Took k l₁ k₁) (hnone : keys k.mods l₁ = [])
    (hstill : k₁.seqn = k.seqn ∧ k₁.seqout = k.seqout) (h : Polled k₁ p) : Polled k p := by
  have hkeys : ∀ l, keys k.mods (l₁ ++ l) = keys k₁.mods l := by
    intro l
    rw [keys_append, hnone, List.nil_append, ht.mods]
  cases h with
  | dry l k' took nil none still =>
    exact .dry _ k' (ht.trans took) nil (by rw [hkeys, none])
      (by rw [still.1, still.2]; exact hstill)
  | plain l key k' took one ordinary ne still =>
    exact .plain _ key k' (ht.trans took) (by rw [hkeys, one]) ordinary ne
      (by rw [still.1, still.2]; exact hstill)
  | special l key k' took one special =>
    rw [ht.seq]
    exact .special _ key k' (ht.trans took) (by rw [hkeys, one]) special

theorem keys_singleton (m : Mods) (sc : UInt8) :
    keys m [sc] = if (decode m sc).1 = -2 then [] else [(decode m sc).1] := rfl

/-- **The loop** takes one scancode in each turn, so it comes to an end. -/
theorem polled_loop (h : k.WF) (hfuel : k.contents.length < fuel) : Polled k (pollLoop fuel k) := by
  induction fuel generalizing k with
  | zero => exact absurd hfuel (Nat.not_lt_zero _)
  | succ fuel ih =>
    by_cases hnil : k.contents = []
    · rw [pollLoop, h.poll_nil hnil]
      exact .dry [] k (.refl h) hnil rfl ⟨rfl, rfl⟩
    · obtain ⟨sc, hkey, took, hn, hout⟩ := h.poll hnil
      have hne := decode_ne k.mods sc
      have hone := keys_singleton k.mods sc
      simp only [pollLoop, hkey, if_neg hne]
      split
      · next hskip =>
        rw [if_pos hskip] at hone
        refine .of_took took hone ⟨hn, hout⟩ (ih took.wf ?_)
        have := congrArg List.length took.contents
        simp only [List.length_append, List.length_singleton] at this
        omega
      · next hskip =>
        rw [if_neg hskip] at hone
        split
        · next hspecial =>
          rw [took.seq]
          exact .special [sc] _ _ ⟨⟨took.wf.head_lt, took.wf.tail_lt⟩, took.contents,
            took.mods, rfl⟩ hone hspecial
        · next hspecial => exact .plain [sc] _ _ took hone hspecial hne ⟨hn, hout⟩

/-- Where it says that there is nothing, there was no key in the buffer. -/
theorem Polled.keys_eq_nil {p : ℤ × Kbd} (h : Polled k p) (hseq : ∀ i, k.seq i = 0)
    (hdry : p.1 = -1) :
    keys k.mods k.contents = [] := by
  cases h with
  | dry l k' took nil none still => rw [took.contents, nil, List.append_nil, none]
  | plain l key k' took one ordinary ne still => exact absurd hdry ne
  | special l key k' took one special =>
    have hzero : ((0 : UInt8).toNat : ℤ) ≠ -1 := by decide
    rw [hseq] at hdry
    exact absurd hdry hzero

/-! ## Runs -/

/-- Two lists that have something else at the same place. -/
def Differ (a b : List ℤ) : Prop := ∃ i : ℕ, ∃ x y, a[i]? = some x ∧ b[i]? = some y ∧ x ≠ y

theorem Differ.append {a b : List ℤ} (h : Differ a b) (c d : List ℤ) :
    Differ (a ++ c) (b ++ d) := by
  obtain ⟨i, x, y, hx, hy, hne⟩ := h
  have hia := (List.getElem?_eq_some_iff.mp hx).1
  have hib := (List.getElem?_eq_some_iff.mp hy).1
  exact ⟨i, x, y, by rw [List.getElem?_append_left hia, hx],
    by rw [List.getElem?_append_left hib, hy], hne⟩

theorem Differ.not_prefix {a b : List ℤ} (h : Differ a b) : ¬a <+: b := by
  rintro ⟨c, rfl⟩
  obtain ⟨i, x, y, hx, hy, hne⟩ := h
  rw [List.getElem?_append_left (List.getElem?_eq_some_iff.mp hx).1, hx] at hy
  exact hne (Option.some.inj hy)

/-- The bytes of the keys that have been taken from the buffer. -/
def Run.owed (r : Run) : List ℤ := (keys powerOn.mods r.taken).flatMap encode

/-- What each event keeps. A special key that has been taken shows in what was handed out. -/
structure Run.Inv (r : Run) : Prop where
  /-- The ring is in order. -/
  wf : r.kbd.WF
  /-- `g_seq` is as it was at power-on. -/
  seq : ∀ i, r.kbd.seq i = 0
  /-- What came was taken, or is still there. -/
  accepted : r.accepted = r.taken ++ r.kbd.contents
  /-- The modifiers are those after what was taken. -/
  mods : r.kbd.mods = modsAfter powerOn.mods r.taken
  /-- Before the first special key what was handed out is right, and after it is not. -/
  out : ((∀ key ∈ keys powerOn.mods r.taken, ¬Special key) ∧ r.out = r.owed ∧
    r.kbd.seqn ≤ r.kbd.seqout) ∨
    (∃ key ∈ keys powerOn.mods r.taken, Special key) ∧ Differ r.out r.owed

theorem Run.taken_of_accepted (h : r.accepted = l ++ r.kbd.contents) : r.taken = l := by
  rw [Run.taken, ← length_contents, h, List.length_append, Nat.add_sub_cancel, List.take_left]

theorem Run.owed_append {r' : Run} (h : r'.taken = r.taken ++ l) :
    r'.owed = r.owed ++ (keys (modsAfter powerOn.mods r.taken) l).flatMap encode := by
  rw [Run.owed, Run.owed, h, keys_append, List.flatMap_append]

theorem encode_special {key : ℤ} (h : Special key) : ∃ rest, encode key = 0x1B :: rest := by
  rw [encode, if_pos h, vtSequence]
  split_ifs <;> exact ⟨_, rfl⟩

/-- A call of `poll_char` when no sequence is part delivered. -/
theorem Run.Inv.polled (h : r.Inv) {p : ℤ × Kbd} (hp : Polled r.kbd p) :
    Run.Inv ⟨p.2, r.accepted, if p.1 = -1 then r.out else r.out ++ [p.1]⟩ := by
  have htaken : ∀ {l k' out}, Took r.kbd l k' → (Run.mk k' r.accepted out).taken =
      r.taken ++ l := by
    intro l k' out ht
    exact taken_of_accepted (by rw [h.accepted, ht.contents, List.append_assoc])
  have hkeys : ∀ {l}, keys powerOn.mods (r.taken ++ l) = keys powerOn.mods r.taken ++
      keys r.kbd.mods l := by
    intro l
    rw [keys_append, h.mods]
  have hrest : ∀ {l k' out}, Took r.kbd l k' →
    (((∀ key ∈ keys powerOn.mods (r.taken ++ l), ¬Special key) ∧
      out = r.owed ++ (keys r.kbd.mods l).flatMap encode ∧ k'.seqn ≤ k'.seqout) ∨
      (∃ key ∈ keys powerOn.mods (r.taken ++ l), Special key) ∧
        Differ out (r.owed ++ (keys r.kbd.mods l).flatMap encode)) → Run.Inv ⟨k',
          r.accepted, out⟩ := by
    intro l k' out ht hcase
    have ht' := @htaken l k' out ht
    refine ⟨ht.wf, fun i => by rw [ht.seq, h.seq], ?_, ?_, ?_⟩
    · rw [ht', List.append_assoc, ← ht.contents]
      exact h.accepted
    · rw [ht', modsAfter_append, ← h.mods]
      exact ht.mods
    · rw [owed_append ht', ht', ← h.mods]
      exact hcase
  cases hp with
  | dry l k' took nil none still =>
    refine hrest took ?_
    rw [if_pos rfl, hkeys, none, List.append_nil, List.flatMap_nil,
      List.append_nil, still.1, still.2]
    exact h.out
  | plain l key k' took one ordinary ne still =>
    refine hrest took ?_
    rw [if_neg ne, hkeys, one, List.flatMap_singleton, encode, if_neg ordinary, still.1, still.2]
    rcases h.out with ⟨hall, heq, hle⟩ | ⟨⟨z, hz, hs⟩, hdiff⟩
    · refine .inl ⟨fun z hz => ?_, by rw [heq], hle⟩
      rcases List.mem_append.mp hz with hz | hz
      · exact hall z hz
      · obtain rfl := List.mem_singleton.mp hz
        exact ordinary
    · exact .inr ⟨⟨z, List.mem_append_left _ hz, hs⟩, hdiff.append _ _⟩
  | special l key k' took one special =>
    refine hrest took (.inr ⟨⟨key, ?_, special⟩, ?_⟩)
    · rw [hkeys, one]
      exact List.mem_append_right _ (List.mem_singleton_self key)
    · obtain ⟨rest, hrest⟩ := encode_special special
      rw [h.seq, if_neg (show ((0 : UInt8).toNat : ℤ) ≠ -1 by decide), one,
        List.flatMap_singleton, hrest]
      rcases h.out with ⟨-, heq, -⟩ | ⟨-, hdiff⟩
      · exact ⟨r.out.length, 0, 0x1B, by rw [List.getElem?_concat_length]; rfl,
          by rw [heq, List.getElem?_append_right le_rfl, Nat.sub_self]; rfl, by decide⟩
      · exact hdiff.append _ _

theorem Run.Inv.step (h : r.Inv) (e : Event) : (r.step e).Inv := by
  cases e with
  | irq sc =>
    by_cases hfull : (r.kbd.head + 1) % kKbdBuf = r.kbd.tail
    · have hsame : r.step (.irq sc) = r := by
        rw [Run.step, Kbd.irq, if_pos hfull]
        rfl
      rw [hsame]
      exact h
    · have hput : r.kbd.irq sc = (true, (r.kbd.irq sc).2) := by rw [Kbd.irq, if_neg hfull]
      have hmods : (r.kbd.irq sc).2.mods = r.kbd.mods := by rw [Kbd.irq, if_neg hfull]
      have hseq : (r.kbd.irq sc).2.seq = r.kbd.seq := by rw [Kbd.irq, if_neg hfull]
      have hsent : (r.kbd.irq sc).2.seqn = r.kbd.seqn ∧ (r.kbd.irq sc).2.seqout = r.kbd.seqout := by
        rw [Kbd.irq, if_neg hfull]
        exact ⟨rfl, rfl⟩
      have hstep : r.step (.irq sc) = ⟨(r.kbd.irq sc).2, r.accepted ++ [sc], r.out⟩ := by
        rw [Run.step, hput]
        rfl
      have hacc : r.accepted ++ [sc] = r.taken ++ (r.kbd.irq sc).2.contents := by
        rw [h.wf.irq (congrArg Prod.fst hput), ← List.append_assoc, ← h.accepted]
      have htaken : (Run.mk (r.kbd.irq sc).2 (r.accepted ++ [sc]) r.out).taken = r.taken :=
        taken_of_accepted hacc
      rw [hstep]
      refine ⟨h.wf.after_irq sc, fun i => by rw [hseq, h.seq], ?_, ?_, ?_⟩
      · rw [htaken]
        exact hacc
      · rw [htaken, hmods]
        exact h.mods
      · rw [Run.owed, htaken, hsent.1, hsent.2]
        exact h.out
  | pollChar =>
    by_cases hout : r.kbd.seqout < r.kbd.seqn
    · have htaken : (r.step .pollChar).taken = r.taken := by
        rw [Run.step, pollChar, if_pos hout]
        exact taken_of_accepted h.accepted
      have hbyte : (r.step .pollChar).out = r.out ++ [0] := by
        rw [Run.step, pollChar, if_pos hout, h.seq]
        rfl
      have hkbd : (r.step .pollChar).kbd = { r.kbd with seqout := r.kbd.seqout + 1 } := by
        rw [Run.step, pollChar, if_pos hout]
      obtain ⟨hs, hdiff⟩ := h.out.resolve_left fun hl => absurd hl.2.2 (not_le.mpr hout)
      refine ⟨?_, ?_, ?_, ?_, .inr ⟨by rw [htaken]; exact hs, ?_⟩⟩
      · rw [hkbd]
        exact ⟨h.wf.head_lt, h.wf.tail_lt⟩
      · rw [hkbd]
        exact h.seq
      · rw [htaken, hkbd]
        exact h.accepted
      · rw [htaken, hkbd]
        exact h.mods
      · have hsame := hdiff.append [0] []
        rw [List.append_nil] at hsame
        rw [hbyte, Run.owed, htaken]
        exact hsame
    · have hp := polled_loop h.wf h.wf.length_lt
      rw [Run.step, pollChar, if_neg hout]
      exact h.polled hp

theorem Run.inv_powerOn : Run.Inv ⟨powerOn, [], []⟩ :=
  ⟨⟨by decide, by decide⟩, fun _ => rfl, rfl, rfl, .inl ⟨nofun, rfl, le_rfl⟩⟩

theorem Run.inv_after (es : List Event) : (Run.after es).Inv := by
  rw [Run.after]
  generalize hr : (⟨powerOn, [], []⟩ : Run) = r
  have h : r.Inv := hr ▸ inv_powerOn
  clear hr
  induction es generalizing r with
  | nil => exact h
  | cons e es ih => exact ih _ (h.step e)

/-- **When the bytes are those of the keys.** -/
theorem faithful_iff (es : List Event) : (Run.after es).Faithful ↔
    ∀ key ∈ keys powerOn.mods (Run.after es).taken, ¬Special key := by
  have h := Run.inv_after es
  generalize Run.after es = r at h
  have hall : (keys powerOn.mods r.accepted).flatMap encode =
      r.owed ++ (keys r.kbd.mods r.kbd.contents).flatMap encode := calc
    _ = (keys powerOn.mods (r.taken ++ r.kbd.contents)).flatMap encode := by rw [← h.accepted]
    _ = _ := by rw [keys_append, List.flatMap_append, h.mods, Run.owed]
  rw [Run.Faithful, hall]
  rcases h.out with ⟨hnone, heq, hle⟩ | ⟨⟨key, hkey, hspecial⟩, hdiff⟩
  · refine iff_of_true ⟨⟨_, by rw [heq]⟩, fun hdry => ?_⟩ hnone
    rw [pollChar, if_neg (not_lt.mpr hle)] at hdry
    rw [(polled_loop h.wf h.wf.length_lt).keys_eq_nil h.seq hdry, List.flatMap_nil,
      List.append_nil, heq]
  · refine iff_of_false (fun hf => ?_) fun hn => hn key hkey hspecial
    have hmore := hdiff.append [] ((keys r.kbd.mods r.kbd.contents).flatMap encode)
    rw [List.append_nil] at hmore
    exact hmore.not_prefix hf.1

/-- The key up is not handed out. -/
theorem up_is_zero : ¬(Run.after [.irq 0xE0, .irq 0x48, .pollChar]).Faithful := by
  intro h
  exact absurd (List.prefix_iff_eq_take.mp h.1) (by decide +kernel)

end Kbd

end Aurisys
