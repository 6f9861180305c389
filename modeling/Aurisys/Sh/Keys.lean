import Aurisys.Kernel.Keyboard

/-!
# The keys the shell reads

`pump_input` fills a buffer of 64 bytes from the terminal, and `next_key` takes a key from it. A key
that has no character comes as a sequence that starts with an escape.

`next_key` does not look for the end of a sequence. It takes up to eight bytes, whatever they are,
so the keys behind a sequence are lost with it. And it looks for the `~` in the third byte, where
the table of the keyboard has a digit.

## Main definitions

* `Input`, `Input.pumpInput`, `Input.nextKey`
* `Stroke`, `Stroke.encode` — the keys of a keyboard and their bytes
* `Input.Decodes` — successive calls return these keys
* `Framed` — a sequence comes last, and has no `~`

## Main results

* `Input.reads_special_iff`
* `Input.decodes_pump_iff`
-/

namespace Aurisys.Sh

/-- What `g_key` is. -/
inductive Code
  | char
  | up
  | down
  | left
  | right
  | home
  | end_
  | del
  | ins
  | pgUp
  | pgDn
  | tab
  | enter
  | backspace
  | eof
  | none
  deriving DecidableEq

/-- `g_in` as far as `g_inn`, `g_inhead`, `g_key` and `g_keych`. -/
structure Input where
  bytes : List UInt8
  head : ℕ
  key : Code
  keych : UInt8

namespace Input

def kIn : ℕ := 64

/-- `pump_input`, and what it leaves on the terminal. -/
def pumpInput (i : Input) : List UInt8 → Input × List UInt8
  | [] => (i, [])
  | c :: tty =>
    if i.bytes.length < kIn then pumpInput { i with bytes := i.bytes ++ [c] } tty else (i, c :: tty)

/-- The key of a byte that is not an escape. -/
def plain (c : UInt8) : Code :=
  if c = 0x0A ∨ c = 0x0D then .enter
  else if c = 0x09 then .tab
  else if c = 0x7F ∨ c = 0x08 then .backspace
  else if c = 0x04 then .eof
  else .char

/-- The switch of `next_key`. -/
def sequence (seq : List UInt8) : Code :=
  match seq.getD 2 0 with
  | 0x41 => .up
  | 0x42 => .down
  | 0x43 => .right
  | 0x44 => .left
  | 0x48 => .home
  | 0x46 => .end_
  | 0x7E =>
    match if 4 ≤ seq.length then seq.getD 3 0 else 0 with
    | 0x32 => .ins
    | 0x33 => .del
    | 0x35 => .pgUp
    | 0x36 => .pgDn
    | _ => .none
  | _ => .none

/-- `next_key`, and whether there was a byte. -/
def nextKey (i : Input) : Bool × Input :=
  if i.bytes.length ≤ i.head then (false, { i with bytes := [], head := 0 })
  else
    let c := i.bytes.getD i.head 0
    if c ≠ 0x1B then (true, { i with head := i.head + 1, key := plain c, keych := c })
    else
      let seq := c :: (i.bytes.drop (i.head + 1)).take 7
      let head := i.head + seq.length
      if seq.length < 3 ∨ seq.getD 1 0 ≠ 0x5B then
        (true, { i with
          head := head, key := .char, keych := if 1 < seq.length then seq.getD 1 0 else 0 })
      else (true, { i with head := head, key := sequence seq })

end Input

/-! ## Keys -/

/-- The keys with a sequence. -/
inductive Special
  | up
  | down
  | left
  | right
  | home
  | end_
  | pgUp
  | pgDn
  | del
  | ins

/-- What the keyboard calls a key. -/
def Special.key : Special → ℤ
  | up => Kbd.keyUp
  | down => Kbd.keyDown
  | left => Kbd.keyLeft
  | right => Kbd.keyRight
  | home => Kbd.keyHome
  | end_ => Kbd.keyEnd
  | pgUp => Kbd.keyPgUp
  | pgDn => Kbd.keyPgDn
  | del => Kbd.keyDel
  | ins => Kbd.keyIns

/-- What the shell calls it. -/
def Special.code : Special → Code
  | up => .up
  | down => .down
  | left => .left
  | right => .right
  | home => .home
  | end_ => .end_
  | pgUp => .pgUp
  | pgDn => .pgDn
  | del => .del
  | ins => .ins

/-- The keys whose sequence ends with a `~`. -/
def Special.Tilde (s : Special) : Prop := s = pgUp ∨ s = pgDn ∨ s = del ∨ s = ins

/-- The sequences with a `~` have a digit in the third byte. -/
theorem Special.Tilde.three {s : Special} (h : s.Tilde) (rest : List UInt8) : ∃ d,
    Input.sequence (0x1B :: 0x5B :: d :: rest) = .none ∧ Kbd.vtSequence s.key =
    [0x1B, 0x5B, d, 0x7E] := by
  rcases h with rfl | rfl | rfl | rfl
  · exact ⟨0x35, rfl, rfl⟩
  · exact ⟨0x36, rfl, rfl⟩
  · exact ⟨0x33, rfl, rfl⟩
  · exact ⟨0x32, rfl, rfl⟩

theorem Special.code_ne (s : Special) : s.code ≠ .none := by cases s <;> decide

/-- The sequences without a `~` have their letter in the third byte. -/
theorem Special.three_of_not_tilde {s : Special} (h : ¬s.Tilde) (rest : List UInt8) :
    ∃ d, Input.sequence (0x1B :: 0x5B :: d :: rest) = s.code ∧ Kbd.vtSequence s.key =
    [0x1B, 0x5B, d] := by
  cases s with
  | up => exact ⟨0x41, rfl, rfl⟩
  | down => exact ⟨0x42, rfl, rfl⟩
  | left => exact ⟨0x44, rfl, rfl⟩
  | right => exact ⟨0x43, rfl, rfl⟩
  | home => exact ⟨0x48, rfl, rfl⟩
  | end_ => exact ⟨0x46, rfl, rfl⟩
  | pgUp => exact absurd (.inl rfl) h
  | pgDn => exact absurd (.inr (.inl rfl)) h
  | del => exact absurd (.inr (.inr (.inl rfl))) h
  | ins => exact absurd (.inr (.inr (.inr rfl))) h

/-- **A key that is struck.** -/
inductive Stroke
  | char (c : UInt8) (printable : 0x20 ≤ c ∧ c < 0x7F)
  | enter
  | tab
  | backspace
  | special (s : Special)

/-- The bytes the keyboard makes of it. -/
def Stroke.encode : Stroke → List UInt8
  | char c _ => [c]
  | enter => [0x0A]
  | tab => [0x09]
  | backspace => [0x08]
  | special s => Kbd.vtSequence s.key

theorem Stroke.encode_ne_nil (k : Stroke) : k.encode ≠ [] := by
  cases k with
  | special s => cases s <;> exact List.cons_ne_nil _ _
  | _ => exact List.cons_ne_nil _ _

/-- The shell has this key in its variables. -/
def Stroke.ReadAs : Stroke → Input → Prop
  | char c _, i => i.key = .char ∧ i.keych = c
  | enter, i => i.key = .enter
  | tab, i => i.key = .tab
  | backspace, i => i.key = .backspace
  | special s, i => i.key = s.code

/-- A sequence comes last, and has no `~`. -/
def Framed (ks : List Stroke) : Prop := ∀ l s r, ks = l ++ Stroke.special s :: r → r = [] ∧ ¬s.Tilde

namespace Input

variable {i : Input} {k : Stroke} {s : Special} {ks : List Stroke} {c : UInt8}
  {rest tty : List UInt8}

/-- A call returns this key, and has taken its bytes and no others. -/
def Reads (i : Input) (k : Stroke) : Prop :=
  (nextKey i).1 = true ∧ k.ReadAs (nextKey i).2 ∧ (nextKey i).2.head = i.head + k.encode.length

/-- **Successive calls return exactly these keys.** -/
def Decodes (i : Input) : List Stroke → Prop
  | [] => (nextKey i).1 = false
  | k :: ks => i.Reads k ∧ (nextKey i).2.Decodes ks

/-- The bytes that have not been taken. -/
def left (i : Input) : List UInt8 := i.bytes.drop i.head

/-! ## A call -/

theorem lt_of_left (h : i.left = c :: rest) : i.head < i.bytes.length := by
  have := congrArg List.length h
  rw [left, List.length_drop, List.length_cons] at this
  omega

theorem getD_of_left (h : i.left = c :: rest) : i.bytes.getD i.head 0 = c := by
  have hc : i.bytes[i.head]? = some c := by
    rw [← List.head?_drop]
    exact congrArg List.head? h
  rw [List.getD_eq_getElem?_getD, hc, Option.getD_some]

theorem drop_of_left (h : i.left = c :: rest) : i.bytes.drop (i.head + 1) = rest := by
  rw [← List.drop_drop]
  exact congrArg (List.drop 1) h

theorem nextKey_nil (h : i.left = []) : (nextKey i).1 = false := by
  rw [nextKey, if_pos (List.drop_eq_nil_iff.mp h)]

theorem nextKey_plain (h : i.left = c :: rest) (hc : c ≠ 0x1B) :
    nextKey i = (true, { i with head := i.head + 1, key := plain c, keych := c }) := by
  rw [nextKey, if_neg (not_le.mpr (lt_of_left h)), getD_of_left h]
  exact if_pos hc

/-- What a call leaves when it has taken a sequence. -/
def afterSequence (i : Input) (seq : List UInt8) : Input :=
  { i with head := i.head + seq.length, key := sequence seq }

/-- A sequence takes five bytes behind its third, if there are so many. -/
theorem nextKey_sequence (h : i.left = 0x1B :: 0x5B :: c :: rest) :
    nextKey i = (true, i.afterSequence (0x1B :: 0x5B :: c :: rest.take 5)) := by
  rw [nextKey, if_neg (not_le.mpr (lt_of_left h)), getD_of_left h, drop_of_left h]
  rw [if_neg (not_not.mpr rfl)]
  exact if_neg (by simp)

theorem nextKey_bytes (h : i.left ≠ []) : (nextKey i).2.bytes = i.bytes := by
  have hlt : ¬i.bytes.length ≤ i.head := fun hle => h (List.drop_eq_nil_iff.mpr hle)
  simp only [nextKey, if_neg hlt]
  split
  · rfl
  · split <;> rfl

theorem Reads.left (hr : i.Reads k) (h : i.left = k.encode ++ rest) :
    (nextKey i).2.left = rest := by
  have hne : i.left ≠ [] := by
    rw [h]
    exact List.append_ne_nil_of_left_ne_nil k.encode_ne_nil rest
  rw [Input.left, nextKey_bytes hne, hr.2.2, ← List.drop_drop]
  change i.left.drop k.encode.length = rest
  rw [h, List.drop_left]

/-- **A key with a character** is read. -/
theorem reads_plain (hk : ∀ s, k ≠ .special s) (h : i.left = k.encode ++ rest) : i.Reads k := by
  cases k with
  | char c printable =>
    have hne : c ≠ 0x1B := by
      rintro rfl
      exact absurd printable.1 (by decide)
    have hplain : plain c = .char := by
      rw [plain]
      split_ifs with h₁ h₂ h₃ h₄
      · rcases h₁ with rfl | rfl <;> exact absurd printable.1 (by decide)
      · rw [h₂] at printable
        exact absurd printable.1 (by decide)
      · rcases h₃ with rfl | rfl
        · exact absurd printable.2 (by decide)
        · exact absurd printable.1 (by decide)
      · rw [h₄] at printable
        exact absurd printable.1 (by decide)
      · rfl
    have hcall := nextKey_plain h hne
    rw [Reads, hcall]
    exact ⟨rfl, ⟨hplain, rfl⟩, rfl⟩
  | enter =>
    have hcall := nextKey_plain h (by decide)
    rw [Reads, hcall]
    exact ⟨rfl, rfl, rfl⟩
  | tab =>
    have hcall := nextKey_plain h (by decide)
    rw [Reads, hcall]
    exact ⟨rfl, rfl, rfl⟩
  | backspace =>
    have hcall := nextKey_plain h (by decide)
    rw [Reads, hcall]
    exact ⟨rfl, rfl, rfl⟩
  | special s => exact absurd rfl (hk s)

/-- **A key with a sequence** is read where nothing comes behind it and no `~` is in it. -/
theorem reads_special_iff (h : i.left = (Stroke.special s).encode ++ rest) :
    i.Reads (.special s) ↔ rest = [] ∧ ¬s.Tilde := by
  rw [Stroke.encode] at h
  by_cases ht : s.Tilde
  · obtain ⟨d, hnone, hs⟩ := Special.Tilde.three ht ((0x7E :: rest).take 5)
    refine iff_of_false (fun hr => ?_) fun hr => hr.2 ht
    rw [hs] at h
    have hkey : (nextKey i).2.key = s.code := hr.2.1
    rw [nextKey_sequence h] at hkey
    exact s.code_ne (hkey.symm.trans hnone)
  · obtain ⟨d, hcode, hs⟩ := Special.three_of_not_tilde ht (rest.take 5)
    rw [hs] at h
    rw [Reads, nextKey_sequence h, afterSequence, Stroke.encode, hs]
    constructor
    · rintro ⟨-, -, hhead⟩
      have htaken : i.head + ((rest.take 5).length + 3) = i.head + 3 := hhead
      have hlen : (rest.take 5).length = 0 := by omega
      rw [List.length_take] at hlen
      exact ⟨List.length_eq_zero_iff.mp (by omega), ht⟩
    · rintro ⟨rfl, -⟩
      exact ⟨rfl, hcode, rfl⟩

/-! ## Batches -/

theorem flatMap_encode_eq_nil : ks.flatMap Stroke.encode = [] ↔ ks = [] := by
  rw [List.flatMap_eq_nil_iff]
  refine ⟨fun h => List.eq_nil_iff_forall_not_mem.mpr fun k hk => Stroke.encode_ne_nil k (h k hk),
    ?_⟩
  rintro rfl
  nofun

theorem framed_cons_iff : Framed (k :: ks) ↔ (∀ s, k = .special s → ks = [] ∧ ¬s.Tilde) ∧
    Framed ks := by
  constructor
  · intro h
    refine ⟨fun s hs => h [] s ks (by rw [hs]; rfl),
      fun l s r hl => h (k :: l) s r (by rw [hl]; rfl)⟩
  · rintro ⟨hk, hks⟩ l s r hl
    cases l with
    | nil =>
      obtain ⟨rfl, rfl⟩ := List.cons.inj hl
      exact hk s rfl
    | cons k' l => exact hks l s r (List.cons.inj hl).2

/-- **A batch** in the buffer. -/
theorem decodes_iff (h : i.left = ks.flatMap Stroke.encode) : i.Decodes ks ↔ Framed ks := by
  induction ks generalizing i with
  | nil => exact iff_of_true (nextKey_nil h) fun l s r hl => absurd hl.symm (by simp)
  | cons k ks ih =>
    rw [List.flatMap_cons] at h
    have hreads : i.Reads k ↔ ∀ s, k = .special s → ks = [] ∧ ¬s.Tilde := by
      cases k with
      | special s =>
        rw [reads_special_iff h, flatMap_encode_eq_nil]
        refine ⟨fun hs s' hs' => ?_, fun hs => hs s rfl⟩
        rw [← Stroke.special.inj hs']
        exact hs
      | _ => exact iff_of_true (reads_plain nofun h) nofun
    rw [Decodes, framed_cons_iff, hreads]
    exact and_congr_right fun hk => ih ((hreads.mpr hk).left h)

theorem pumpInput_eq (i : Input) (tty : List UInt8) (fit : i.bytes.length + tty.length ≤ kIn) :
    i.pumpInput tty = ({ i with bytes := i.bytes ++ tty }, []) := by
  induction tty generalizing i with
  | nil =>
    rw [pumpInput, List.append_nil]
  | cons c tty ih =>
    rw [List.length_cons] at fit
    rw [pumpInput, if_pos (by omega), ih]
    · rw [List.append_assoc, List.singleton_append]
    · rw [List.length_append, List.length_singleton]
      omega

/-- **When the shell decodes what the keyboard encodes.** -/
theorem decodes_pump_iff (key : Code) (keych : UInt8) (ks : List Stroke)
    (fit : (ks.flatMap Stroke.encode).length ≤ kIn) :
    (pumpInput ⟨[], 0, key, keych⟩ (ks.flatMap Stroke.encode)).1.Decodes ks ↔ Framed ks := by
  rw [pumpInput_eq _ _ (by rw [List.length_nil]; omega)]
  exact decodes_iff rfl

/-- The theorem for a tab and an arrow. -/
theorem decodes_tab_up :
    (pumpInput ⟨[], 0, .none, 0⟩ ([.tab, .special .up].flatMap Stroke.encode)).1.Decodes [.tab,
      .special .up] ↔
      Framed [.tab, .special .up] :=
  decodes_pump_iff .none 0 [.tab, .special .up] (by decide)

/-- The key `Del` is not known, and an arrow takes the tab behind it. -/
theorem sequences_lost :
    ¬(pumpInput ⟨[], 0, .none, 0⟩ ([.special .del].flatMap Stroke.encode)).1.Decodes
    [.special .del] ∧
      ¬(pumpInput ⟨[], 0, .none, 0⟩ ([.special .up, .tab].flatMap Stroke.encode)).1.Decodes
        [.special .up, .tab] := by
  refine ⟨fun h => ?_, fun h => ?_⟩
  · have hkey : Code.none = Code.del := h.1.2.1
    exact absurd hkey (by decide)
  · have hhead : 4 = 3 := h.1.2.2
    exact absurd hhead (by decide)

end Input

end Aurisys.Sh
