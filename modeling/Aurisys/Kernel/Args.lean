import Aurisys.Kernel.Task
import Aurisys.Lib.Strings

/-!
# Arguments and environment

The strings that `execve` gets are copied out of the space of the caller into one buffer of the
kernel, one behind the other, and from there to the top of the stack of the new image, downwards;
below them are the vectors that point at them, and the number of arguments. Neither in the buffer
nor on the stack is there anything that says where the environment begins: `build_stack` counts the
strings up to a length, and `_start` goes as many words up from the vector of arguments.

So there are two halves, which meet at `Flattened`, a description of the buffer.

## Main definitions

* `copyArgs`, `buildStack` — the kernel's side
* `crt0` — what `_start` gives to `main`
* `Flattened` — the strings are in the buffer

## Main results

* `copyArgs_spec`, `buildStack_spec` — the two halves
* `arguments_round_trip` — the new image gets what the old one gave
-/

namespace Aurisys

open Bytes

namespace Args

def kCopyArg : ℕ := 16

def kCopyEnv : ℕ := 32

def kCopyStr : ℕ := 192

/-- The size of `g_flat`. -/
def flatBytes : ℕ := 8 + (kCopyArg + kCopyEnv) * kCopyStr

/-! ## Out of the space of the caller -/

/-- The loops of `copy_args`: a string goes behind the last one, unless it would be truncated. -/
def copyStrings (m : Bytes) : List ℕ → Bytes → ℕ → Option (Bytes × ℕ)
  | [], out, p => some (out, p)
  | a :: as, out, p =>
    if kCopyStr ≤ strlen m a then none
    else copyStrings m as (memcpy out p m a (strlen m a + 1)) (p + (strlen m a + 1))

/-- `copy_args`, from the vectors `av` and `ev`: what `out` holds then. -/
def copyArgs (m : Bytes) (av ev : List ℕ) (out : Bytes) : Option Bytes :=
  (copyStrings m av out 8).bind fun (out, p) =>
    let arglen := p - 8
    (copyStrings m ev out p).map fun (out, _) => w32 (w32 out 0 arglen) 4 ev.length

/-! ## Onto the stack -/

/-- The loop of `build_stack` that counts the arguments, from the offset `q` on. An argument has one
byte at least. -/
def countArgs (flat : Bytes) (arglen : ℕ) : ℕ → ℕ → ℕ
  | 0, _ => 0
  | n + 1, q =>
    if q < arglen then countArgs flat arglen n (q + (strlen flat (8 + q) + 1)) + 1 else 0

/-- The loops of `build_stack` over `n` strings from `p` on: each goes below `s`, if there is room.
The stack, and, if there was room for all, its end, the end of the strings and where each has
gone. -/
def pushStrings (flat : Bytes) : ℕ → Bytes → ℕ → ℕ → Bytes × Option (ℕ × ℕ × List ℕ)
  | 0, m, s, p => (m, some (s, p, []))
  | n + 1, m, s, p =>
    let len := strlen flat p + 1
    if s - kStackBase < len then (m, none)
    else
      let (m, r) := pushStrings flat n (memcpy m (s - len) flat p len) (s - len) (p + len)
      (m, r.map fun (s', p, ptrs) => (s', p, (s - len) :: ptrs))

/-- The end of `build_stack`: the two vectors below `s`, and the number of arguments. -/
def putVectors (m : Bytes) (s : ℕ) (ptrs eptrs : List ℕ) : ℕ × Bytes :=
  if s - kStackBase < 4 * (ptrs.length + eptrs.length + 3) + 16 then (0, m)
  else
    let sp := s - 4
    let m := w32 m sp 0
    let sp := sp - 4 * eptrs.length
    let m := putWords m sp eptrs
    let sp := sp - 4
    let m := w32 m sp 0
    let sp := sp - 4 * ptrs.length
    let m := putWords m sp ptrs
    let sp := sp - 4
    (sp, w32 m sp ptrs.length)

/-- `build_stack` once the arguments are counted: the strings, and the vectors below them. -/
def putStrings (flat : Bytes) (m : Bytes) (argc envc : ℕ) : ℕ × Bytes :=
  match pushStrings flat argc m (kStackBase + kStackBytes) 8 with
  | (m, none) => (0, m)
  | (m, some (s, p, ptrs)) =>
    match pushStrings flat envc m s p with
    | (m, none) => (0, m)
    | (m, some (s, _, eptrs)) => putVectors m s ptrs eptrs

/-- `build_stack`: the stack pointer, or `0`. The two numbers in front of the strings are those that
`copy_args` has put there. -/
def buildStack (flat : Bytes) (m : Bytes) : ℕ × Bytes :=
  putStrings flat m (countArgs flat (r32 flat 0) (r32 flat 0) 0) (r32 flat 4)

/-! ## In the new image -/

/-- What `main` and `environ` are given. -/
structure Start where
  argc : ℕ
  argv : List (List UInt8)
  environ : List (List UInt8)
deriving DecidableEq

/-- `_start`: the vector of the environment is as many words behind the one of arguments as there
are arguments, and one. -/
def crt0 (m : Bytes) (esp : ℕ) : Start where
  argc := r32 m esp
  argv := readVector m (2 ^ 30) (esp + 4)
  environ := readVector m (2 ^ 30) (esp + 8 + 4 * r32 m esp)

/-! ## The buffer -/

/-- The strings are in the buffer, with the length of the arguments and the number of the others. -/
structure Flattened (flat : Bytes) (argv envp : List (List UInt8)) : Prop where
  arglen : r32 flat 0 = packedSize argv
  envc : r32 flat 4 = envp.length
  packed : Packed flat 8 (argv ++ envp)

variable {m flat : Bytes} {as : List ℕ} {ss argv envp : List (List UInt8)} {p : ℕ}

/-- **One loop of `copy_args`.** -/
theorem copyStrings_spec (out : Bytes) (p : ℕ) (h : List.Forall₂ (IsStr m) as ss)
    (hs : ∀ s ∈ ss, s.length < kCopyStr) :
    ∃ out', copyStrings m as out p = some (out', p + packedSize ss) ∧ Packed out' p ss ∧
      ∀ a, a < p ∨ p + packedSize ss ≤ a → out' a = out a := by
  induction h generalizing out p with
  | nil => exact ⟨out, rfl, trivial, fun _ _ => rfl⟩
  | @cons a s as ss ha _ ih =>
    have hlt := hs s List.mem_cons_self
    have hlen : strlen m a = s.length := ha.strlen_eq (by rw [kCopyStr] at hlt; omega)
    obtain ⟨out', he, hp, hrest⟩ := ih (memcpy out p m a (s.length + 1)) (p + (s.length + 1))
      fun t ht => hs t (List.mem_cons_of_mem s ht)
    refine ⟨out', ?_, ⟨?_, hp⟩, fun b hb => ?_⟩
    · rw [copyStrings, hlen, if_neg (Nat.not_le.mpr hlt), he, packedSize_cons, Nat.add_assoc]
    · refine ha.congr fun i hi => ?_
      rw [hrest _ (Or.inl (by omega)), memcpy_of_lt (by omega)]
    · rw [packedSize_cons] at hb
      rw [hrest b (by omega), memcpy_of_lt_or_ge (by omega)]

/-- **`copy_args`** succeeds, and stays in the buffer. -/
theorem copyArgs_spec {av ev : List ℕ} (out : Bytes) (hav : List.Forall₂ (IsStr m) av argv)
    (hev : List.Forall₂ (IsStr m) ev envp) (ha : argv.length ≤ kCopyArg)
    (he : envp.length ≤ kCopyEnv) (hs : ∀ s ∈ argv ++ envp, s.length < kCopyStr) :
    ∃ flat, copyArgs m av ev out = some flat ∧ Flattened flat argv envp ∧
      ∀ a, flatBytes ≤ a → flat a = out a := by
  have hsa : ∀ s ∈ argv, s.length < kCopyStr := fun s h => hs s (List.mem_append_left envp h)
  have hse : ∀ s ∈ envp, s.length < kCopyStr := fun s h => hs s (List.mem_append_right argv h)
  have hba : packedSize argv ≤ 16 * 192 :=
    (packedSize_le hsa).trans (Nat.mul_le_mul_right kCopyStr ha)
  have hbe : packedSize envp ≤ 32 * 192 :=
    (packedSize_le hse).trans (Nat.mul_le_mul_right kCopyStr he)
  have hne : envp.length < 2 ^ 32 := by
    rw [kCopyEnv] at he
    omega
  obtain ⟨out₁, h₁, hp₁, hr₁⟩ := copyStrings_spec out 8 hav hsa
  obtain ⟨out₂, h₂, hp₂, hr₂⟩ := copyStrings_spec out₁ (8 + packedSize argv) hev hse
  set flat := w32 (w32 out₂ 0 (packedSize argv)) 4 envp.length with hflat
  have hback : ∀ a, 8 ≤ a → flat a = out₂ a := by
    intro a h8
    rw [hflat, w32_of_lt_or_ge (by omega), w32_of_lt_or_ge (by omega)]
  refine ⟨flat, ?_, ⟨?_, ?_, ?_⟩, fun a hab => ?_⟩
  · rw [copyArgs, h₁, Option.bind_some]
    dsimp only
    rw [h₂, Option.map_some, hev.length_eq, Nat.add_sub_cancel_left]
  · rw [hflat, r32_w32_of_disjoint (by omega), r32_w32_self]
    exact Nat.mod_eq_of_lt (by omega)
  · rw [hflat, r32_w32_self]
    exact Nat.mod_eq_of_lt hne
  · refine packed_append.mpr ⟨hp₁.congr fun i hi => ?_, hp₂.congr fun i hi => ?_⟩
    · rw [hback _ (by omega), hr₂ _ (Or.inl (by omega))]
    · exact hback _ (by omega)
  · have hsize : flatBytes = 8 + 48 * 192 := rfl
    rw [hback a (by omega), hr₂ a (by omega), hr₁ a (by omega)]

/-- Strings of the allowed number and length can be in a buffer. -/
theorem exists_flattened (ha : argv.length ≤ kCopyArg) (he : envp.length ≤ kCopyEnv)
    (hs : ∀ s ∈ argv ++ envp, s.length < kCopyStr) (hz : ∀ s ∈ argv ++ envp, 0 ∉ s) :
    ∃ flat, Flattened flat argv envp := by
  obtain ⟨m, hm, -⟩ := exists_packed (fun _ => 0) 8 hz
  have hsize : packedSize argv ≤ 16 * 192 :=
    (packedSize_le fun s h => hs s (List.mem_append_left envp h)).trans
      (Nat.mul_le_mul_right kCopyStr ha)
  refine ⟨w32 (w32 m 0 (packedSize argv)) 4 envp.length, ?_, ?_, hm.congr fun i _ => ?_⟩
  · rw [r32_w32_of_disjoint (by omega), r32_w32_self]
    exact Nat.mod_eq_of_lt (by omega)
  · rw [r32_w32_self]
    exact Nat.mod_eq_of_lt (he.trans_lt (by decide))
  · rw [w32_of_lt_or_ge (by omega), w32_of_lt_or_ge (by omega)]

/-! ## The stack -/

/-- The arguments are counted right. -/
theorem countArgs_eq {n q : ℕ} {arglen : ℕ} (h : Packed flat (8 + q) ss)
    (hq : q + packedSize ss = arglen) (hn : ss.length ≤ n) (hs : ∀ s ∈ ss, s.length < 2 ^ 32) :
    countArgs flat arglen n q = ss.length := by
  induction ss generalizing n q with
  | nil =>
    cases n with
    | zero => rfl
    | succ n =>
      rw [packedSize_nil] at hq
      rw [countArgs, if_neg (by omega), List.length_nil]
  | cons s ss ih =>
    rw [packedSize_cons] at hq
    rw [List.length_cons] at hn ⊢
    obtain ⟨n, rfl⟩ : ∃ k, n = k + 1 := ⟨n - 1, by omega⟩
    have hlen : strlen flat (8 + q) = s.length := h.1.strlen_eq (hs s List.mem_cons_self)
    have hrest : Packed flat (8 + (q + (s.length + 1))) ss := by
      rw [show 8 + (q + (s.length + 1)) = 8 + q + s.length + 1 by omega]
      exact h.2
    rw [countArgs, if_pos (by omega), hlen]
    exact congrArg (· + 1) (ih hrest (by omega) (by omega) fun t ht =>
      hs t (List.mem_cons_of_mem s ht))

/-- **One loop of `build_stack`.** The strings end up below `s`, and stay there as long as nobody
writes there. -/
theorem pushStrings_spec {s : ℕ} (h : Packed flat p ss) (hroom : kStackBase + packedSize ss ≤ s)
    (hs : ∀ t ∈ ss, t.length < 2 ^ 32) :
    ∃ m' ptrs, pushStrings flat ss.length m s p =
        (m', some (s - packedSize ss, p + packedSize ss, ptrs)) ∧
      ptrs.length = ss.length ∧ (∀ q ∈ ptrs, s - packedSize ss ≤ q ∧ q < s) ∧
      (∀ m'' : Bytes, (∀ a, s - packedSize ss ≤ a → a < s → m'' a = m' a) →
        List.Forall₂ (IsStr m'') ptrs ss) ∧
      ∀ a, a < s - packedSize ss ∨ s ≤ a → m' a = m a := by
  induction ss generalizing m s p with
  | nil => exact ⟨m, [], rfl, rfl, nofun, fun _ _ => .nil, fun _ _ => rfl⟩
  | cons t ss ih =>
    rw [packedSize_cons] at hroom
    have hlen : strlen flat p = t.length := h.1.strlen_eq (hs t List.mem_cons_self)
    have hrest : Packed flat (p + (t.length + 1)) ss := h.2
    obtain ⟨m', ptrs, he, hl, hin, hstr, hout⟩ :=
      ih (m := memcpy m (s - (t.length + 1)) flat p (t.length + 1)) (s := s - (t.length + 1)) hrest
        (by omega) fun u hu => hs u (List.mem_cons_of_mem t hu)
    have hend : s - (t.length + 1) - packedSize ss = s - packedSize (t :: ss) := by
      rw [packedSize_cons]
      omega
    have hbehind : p + (t.length + 1) + packedSize ss = p + packedSize (t :: ss) := by
      rw [packedSize_cons]
      omega
    rw [hend] at he hin hstr hout
    rw [hbehind] at he
    have hle : s - packedSize (t :: ss) ≤ s - (t.length + 1) := by
      rw [packedSize_cons]
      omega
    refine ⟨m', (s - (t.length + 1)) :: ptrs, ?_, congrArg (· + 1) hl, ?_, fun m'' hm => ?_, ?_⟩
    · rw [List.length_cons, pushStrings, hlen, if_neg (by omega), he]
      rfl
    · intro q hq
      rcases List.mem_cons.mp hq with rfl | hq
      · omega
      · have := hin q hq
        omega
    · refine .cons (h.1.congr fun i hi => ?_) (hstr m'' fun a ha hb => hm a ha (by omega))
      rw [hm _ (by omega) (by omega), hout _ (Or.inr (by omega)), memcpy_of_lt (by omega)]
    · intro a ha
      rw [hout a (by omega), memcpy_of_lt_or_ge (by omega)]

/-- **The vectors** are stored from behind, with the number of arguments in front of them. -/
theorem putVectors_eq {s : ℕ} {ptrs eptrs : List ℕ}
    (hroom : kStackBase + (4 * (ptrs.length + eptrs.length + 3) + 16) ≤ s) :
    putVectors m s ptrs eptrs = (s - 4 * (ptrs.length + eptrs.length + 3),
      putWords m (s - 4 * (ptrs.length + eptrs.length + 3))
      (ptrs.length :: ptrs ++ 0 :: eptrs ++ [0])) := by
  obtain ⟨sp, rfl⟩ : ∃ sp, s = sp + 4 * (ptrs.length + eptrs.length + 3) :=
    ⟨s - 4 * (ptrs.length + eptrs.length + 3), by omega⟩
  rw [putVectors, if_neg (by omega), Nat.add_sub_cancel]
  set a := ptrs.length with ha
  set e := eptrs.length with he
  clear_value a e
  have h₁ : sp + 4 * (a + e + 3) - 4 = sp + 4 + 4 * a + 4 + 4 * e := by omega
  rw [h₁]
  dsimp only
  rw [Nat.add_sub_cancel, Nat.add_sub_cancel, Nat.add_sub_cancel, Nat.add_sub_cancel]
  -- each store is in front of the ones before it
  have hlast : putWords (w32 m (sp + 4 + 4 * a + 4 + 4 * e) 0) (sp + 4 + 4 * a + 4) eptrs =
      putWords m (sp + 4 + 4 * a + 4) (eptrs ++ [0]) := he ▸ putWords_append m _ eptrs [0]
  have hnull : w32 (putWords m (sp + 4 + 4 * a + 4) (eptrs ++ [0])) (sp + 4 + 4 * a) 0 =
      putWords m (sp + 4 + 4 * a) (0 :: (eptrs ++ [0])) := putWords_append m _ [0] _
  have hargs : putWords (putWords m (sp + 4 + 4 * a) (0 :: (eptrs ++ [0]))) (sp + 4) ptrs =
      putWords m (sp + 4) (ptrs ++ 0 :: (eptrs ++ [0])) := ha ▸ putWords_append m _ ptrs _
  have hargc : w32 (putWords m (sp + 4) (ptrs ++ 0 :: (eptrs ++ [0]))) sp a =
      putWords m sp (a :: (ptrs ++ 0 :: (eptrs ++ [0]))) := putWords_append m sp [a] _
  rw [hlast, hnull, hargs, hargc, List.append_assoc]
  rfl

/-- What `_start` makes of the words in front of the strings. -/
theorem crt0_of_words {esp : ℕ} {ptrs eptrs : List ℕ}
    (hw : IsWords m esp (argv.length :: ptrs ++ 0 :: eptrs ++ [0]))
    (ha : List.Forall₂ (IsStr m) ptrs argv)
    (he : List.Forall₂ (IsStr m) eptrs envp) (hnull : ∀ q ∈ ptrs ++ eptrs, q ≠ 0)
    (hs : ∀ s ∈ argv ++ envp, s.length < 2 ^ 32) (hn : argv.length < 2 ^ 30)
    (hn' : envp.length < 2 ^ 30) :
    crt0 m esp = ⟨argv.length, argv, envp⟩ ∧ r32 m (esp + 4 + 4 * argv.length) = 0 ∧
      r32 m (esp + 8 + 4 * argv.length + 4 * envp.length) = 0 := by
  rw [List.append_assoc, List.cons_append, List.cons_append] at hw
  obtain ⟨hargc, hrest⟩ := hw
  obtain ⟨hav, hnull₁, hrest⟩ := hrest.split
  obtain ⟨hev, hnull₂, -⟩ := hrest.split
  have hla : ptrs.length = argv.length := ha.length_eq
  have hle : eptrs.length = envp.length := he.length_eq
  have hat : esp + 4 + 4 * argv.length + 4 = esp + 8 + 4 * argv.length := by omega
  rw [hla] at hnull₁ hnull₂ hev
  rw [hle] at hnull₂
  rw [hat] at hev hnull₂
  have hargv : readVector m (2 ^ 30) (esp + 4) = argv :=
    readVector_eq hav (hla.symm ▸ hnull₁) (fun q hq => hnull q (List.mem_append_left eptrs hq)) ha
      (fun s hs' => hs s (List.mem_append_left envp hs')) (hla ▸ hn)
  have henvp : readVector m (2 ^ 30) (esp + 8 + 4 * argv.length) = envp :=
    readVector_eq hev (hle.symm ▸ hnull₂) (fun q hq => hnull q (List.mem_append_right ptrs hq)) he
      (fun s hs' => hs s (List.mem_append_right argv hs')) (hle ▸ hn')
  exact ⟨by rw [crt0, hargc, hargv, henvp], hnull₁, hnull₂⟩

/-- **All strings**, of a buffer that has the arguments in front of the environment. -/
theorem putStrings_spec (h : Packed flat 8 (argv ++ envp))
    (hs : ∀ s ∈ argv ++ envp, s.length < 2 ^ 32)
    (hroom : kStackBase + packedSize (argv ++ envp) ≤ kStackBase + kStackBytes) :
    ∃ m' ptrs eptrs, putStrings flat m argv.length envp.length =
        putVectors m' (kStackBase + kStackBytes - packedSize (argv ++ envp)) ptrs eptrs ∧
      ptrs.length = argv.length ∧ eptrs.length = envp.length ∧
      (∀ q ∈ ptrs ++ eptrs, kStackBase + kStackBytes - packedSize (argv ++ envp) ≤ q ∧
        q < kStackBase + kStackBytes) ∧
      (∀ m'' : Bytes, (∀ a, kStackBase + kStackBytes - packedSize (argv ++ envp) ≤ a →
        a < kStackBase + kStackBytes →
        m'' a = m' a) → List.Forall₂ (IsStr m'') ptrs argv ∧ List.Forall₂ (IsStr m'') eptrs envp) ∧
      ∀ a, a < kStackBase + kStackBytes - packedSize (argv ++ envp) ∨ kStackBase + kStackBytes ≤ a →
      m' a = m a := by
  obtain ⟨hpa, hpe⟩ := packed_append.mp h
  have hla : ∀ s ∈ argv, s.length < 2 ^ 32 := fun s h => hs s (List.mem_append_left envp h)
  have hle : ∀ s ∈ envp, s.length < 2 ^ 32 := fun s h => hs s (List.mem_append_right argv h)
  rw [packedSize_append, ← Nat.sub_sub] at *
  set top := kStackBase + kStackBytes
  obtain ⟨m₁, ptrs, h₁, hl₁, hin₁, hstr₁, hout₁⟩ :=
    pushStrings_spec (m := m) (s := top) hpa (by omega) hla
  have hfit : kStackBase + packedSize envp ≤ top - packedSize argv := by omega
  have hdown : top - packedSize argv - packedSize envp ≤ top - packedSize argv := Nat.sub_le _ _
  have hup : top - packedSize argv ≤ top := Nat.sub_le _ _
  obtain ⟨m₂, eptrs, h₂, hl₂, hin₂, hstr₂, hout₂⟩ := pushStrings_spec (m := m₁) hpe hfit hle
  refine ⟨m₂, ptrs, eptrs, ?_, hl₁, hl₂, fun q hq => ?_, fun m₃ hm => ⟨?_, ?_⟩, fun a ha => ?_⟩
  · rw [putStrings, h₁]
    dsimp only
    rw [h₂]
  · rcases List.mem_append.mp hq with hq | hq
    · exact ⟨hdown.trans (hin₁ q hq).1, (hin₁ q hq).2⟩
    · exact ⟨(hin₂ q hq).1, (hin₂ q hq).2.trans_le hup⟩
  -- the arguments are above all that was stored after them
  · exact hstr₁ m₃ fun a h₁ h₂ => (hm a (hdown.trans h₁) h₂).trans (hout₂ a (.inr h₁))
  · exact hstr₂ m₃ fun a h₁ h₂ => hm a h₁ (h₂.trans_le hup)
  · rcases ha with ha | ha
    · rw [hout₂ a (.inl ha), hout₁ a (.inl (ha.trans_le hdown))]
    · rw [hout₂ a (.inr (hup.trans ha)), hout₁ a (.inr ha)]

/-- There is room for all of them, and for the vectors. -/
theorem stack_room (ha : argv.length ≤ kCopyArg) (he : envp.length ≤ kCopyEnv)
    (hs : ∀ s ∈ argv ++ envp, s.length < kCopyStr) :
    kStackBase + packedSize (argv ++ envp) + (4 * (argv.length + envp.length + 3) + 16)
    ≤ kStackBase + kStackBytes := by
  have hbytes : kStackBytes = 0x10000 := rfl
  have hsize := packedSize_le hs
  rw [List.length_append, kCopyStr] at hsize
  rw [kCopyArg] at ha
  rw [kCopyEnv] at he
  omega

/-- **`build_stack`**, from the buffer that `copy_args` has filled, and `_start` after it. What
`_start` finds is above the stack pointer, and stays as long as nobody writes there. -/
theorem buildStack_stays (h : Flattened flat argv envp) (ha : argv.length ≤ kCopyArg)
    (he : envp.length ≤ kCopyEnv) (hs : ∀ s ∈ argv ++ envp, s.length < kCopyStr) :
    ∃ esp m', buildStack flat m = (esp, m') ∧ kStackBase ≤ esp ∧ esp < kStackBase + kStackBytes ∧
      (∀ a, a < kStackBase ∨ kStackBase + kStackBytes ≤ a → m' a = m a) ∧
      ∀ m'' : Bytes, (∀ a, esp ≤ a → a < kStackBase + kStackBytes → m'' a = m' a) →
        crt0 m'' esp = ⟨argv.length, argv, envp⟩ ∧ r32 m'' (esp + 4 + 4 * argv.length) = 0 ∧
        r32 m'' (esp + 8 + 4 * argv.length + 4 * envp.length) = 0 := by
  have hroom := stack_room ha he hs
  have hlong : ∀ s ∈ argv ++ envp, s.length < 2 ^ 32 := fun s h => lt_trans (hs s h) (by decide)
  have hna : argv.length < 2 ^ 30 := ha.trans_lt (by decide)
  have hne : envp.length < 2 ^ 30 := he.trans_lt (by decide)
  have hcount : countArgs flat (packedSize argv) (packedSize argv) 0 = argv.length :=
    countArgs_eq (q := 0) (packed_append.mp h.packed).1 (Nat.zero_add _) (length_le_packedSize argv)
      fun s h => hlong s (List.mem_append_left envp h)
  obtain ⟨m₁, ptrs, eptrs, hput, hl₁, hl₂, hin, hstr, hout⟩ :=
    putStrings_spec (m := m) h.packed hlong (by omega)
  set top := kStackBase + kStackBytes with htop
  set s := top - packedSize (argv ++ envp) with hs'
  have hfit : kStackBase + (4 * (ptrs.length + eptrs.length + 3) + 16) ≤ s := by omega
  obtain ⟨sp, hsp⟩ : ∃ sp, s = sp + 4 * (ptrs.length + eptrs.length + 3) :=
    ⟨s - 4 * (ptrs.length + eptrs.length + 3), by omega⟩
  set words := ptrs.length :: ptrs ++ 0 :: eptrs ++ [0] with hwords
  have hlen : 4 * words.length = 4 * (ptrs.length + eptrs.length + 3) := by
    rw [hwords]
    simp only [List.length_append, List.length_cons, List.length_nil]
    omega
  have hend : sp + 4 * words.length = s := by rw [hlen, hsp]
  rw [putVectors_eq hfit, hsp, Nat.add_sub_cancel, ← hwords] at hput
  have hlow : kStackBase ≤ sp := by omega
  have hsle : sp ≤ s := by omega
  have hslt : sp < s := by omega
  have hstop : s ≤ top := Nat.sub_le _ _
  have hword : ∀ w ∈ words, w < 2 ^ 32 := by
    have htop32 : top < 2 ^ 32 := by decide
    intro w hw
    have hall : w = ptrs.length ∨ w = 0 ∨ w ∈ ptrs ++ eptrs := by
      simp only [hwords, List.mem_append, List.mem_cons, List.not_mem_nil, or_false] at hw ⊢
      tauto
    rcases hall with rfl | rfl | hq
    · rw [hl₁]
      exact hna.trans (by decide)
    · exact Nat.two_pow_pos 32
    · exact (hin w hq).2.trans htop32
  have hnull : ∀ q ∈ ptrs ++ eptrs, q ≠ 0 := by
    rintro q hq rfl
    exact absurd (hlow.trans (hsle.trans (hin 0 hq).1)) (by decide)
  refine ⟨sp, putWords m₁ sp words, ?_, hlow, hslt.trans_le hstop, fun a ha => ?_, fun m₂ hm => ?_⟩
  · rw [buildStack, h.arglen, h.envc, hcount, hput]
  · rcases ha with ha | ha
    · rw [putWords_of_lt_or_ge (.inl (ha.trans_le hlow)),
        hout a (.inl (ha.trans_le (hlow.trans hsle)))]
    · rw [putWords_of_lt_or_ge (.inr (hend.trans_le (hstop.trans ha))), hout a (.inr ha)]
  · have hkept : ∀ a, s ≤ a → a < top → m₂ a = m₁ a := fun a h₁ h₂ =>
      (hm a (hsle.trans h₁) h₂).trans (putWords_of_lt_or_ge (.inr (hend.trans_le h₁)))
    have hws : IsWords m₂ sp words := (isWords_putWords m₁ sp hword).congr fun a h₁ h₂ =>
      hm a h₁ (h₂.trans_le (hend.trans_le hstop))
    obtain ⟨hsa, hse⟩ := hstr m₂ hkept
    rw [hwords, hl₁] at hws
    exact crt0_of_words hws hsa hse hnull hlong hna hne

theorem buildStack_spec (h : Flattened flat argv envp) (ha : argv.length ≤ kCopyArg)
    (he : envp.length ≤ kCopyEnv) (hs : ∀ s ∈ argv ++ envp, s.length < kCopyStr) :
    ∃ esp m', buildStack flat m = (esp, m') ∧ kStackBase ≤ esp ∧ esp < kStackBase + kStackBytes ∧
      (∀ a, a < kStackBase ∨ kStackBase + kStackBytes ≤ a → m' a = m a) ∧
      crt0 m' esp = ⟨argv.length, argv, envp⟩ ∧ r32 m' (esp + 4 + 4 * argv.length) = 0 ∧
      r32 m' (esp + 8 + 4 * argv.length + 4 * envp.length) = 0 := by
  obtain ⟨esp, m', hbuild, hlo, hhi, hout, hstays⟩ := buildStack_stays (m := m) h ha he hs
  exact ⟨esp, m', hbuild, hlo, hhi, hout, hstays m' fun _ _ _ => rfl⟩

/-- **Arguments and environment arrive**: whatever strings of the allowed number and length the
vectors point at, they are copied, the stack is built within its bounds, and `main` gets them. -/
theorem arguments_round_trip {av ev : List ℕ} (out stack : Bytes)
    (hav : List.Forall₂ (IsStr m) av argv)
    (hev : List.Forall₂ (IsStr m) ev envp) (ha : argv.length ≤ kCopyArg)
    (he : envp.length ≤ kCopyEnv) (hs : ∀ s ∈ argv ++ envp, s.length < kCopyStr) :
    ∃ flat esp stack', copyArgs m av ev out = some flat ∧ buildStack flat stack = (esp, stack') ∧
      (∀ a, flatBytes ≤ a → flat a = out a) ∧
      esp ≠ 0 ∧ kStackBase ≤ esp ∧ esp < kStackBase + kStackBytes ∧
      (∀ a, a < kStackBase ∨ kStackBase + kStackBytes ≤ a → stack' a = stack a) ∧
      crt0 stack' esp = ⟨argv.length, argv, envp⟩ ∧
      r32 stack' (esp + 4 + 4 * argv.length) = 0 ∧
      r32 stack' (esp + 8 + 4 * argv.length + 4 * envp.length) = 0 := by
  obtain ⟨flat, hcopy, hflat, hbuf⟩ := copyArgs_spec out hav hev ha he hs
  obtain ⟨esp, stack', hbuild, hlo, hhi, hout, hstart, hanull, henull⟩ :=
    buildStack_spec (m := stack) hflat ha he hs
  have hne : esp ≠ 0 := by
    have hbase : kStackBase = 0x40100000 := rfl
    omega
  exact ⟨flat, esp, stack', hcopy, hbuild, hbuf, hne, hlo, hhi, hout, hstart, hanull, henull⟩

/-- The strings `a` and `""` and the variable `b`, from address 100 on. -/
def given : Bytes := fun a => if a = 100 then 97 else if a = 104 then 98 else 0

theorem arguments_round_trip_given : ∃ flat esp stack',
    copyArgs given [100, 102] [104] (fun _ => 0) = some flat ∧
      buildStack flat (fun _ => 0) = (esp, stack') ∧ crt0 stack' esp = ⟨2, [[97], []], [[98]]⟩ := by
  have hav : List.Forall₂ (IsStr given) [100, 102] [[97], []] :=
    .cons ⟨by decide, rfl, rfl⟩ (.cons rfl .nil)
  have hev : List.Forall₂ (IsStr given) [104] [[98]] := .cons ⟨by decide, rfl, rfl⟩ .nil
  obtain ⟨flat, esp, stack', hcopy, hbuild, -, -, -, -, -, hstart, -⟩ :=
    arguments_round_trip (fun _ => 0) (fun _ => 0) hav hev (by decide) (by decide) (by decide)
  exact ⟨flat, esp, stack', hcopy, hbuild, hstart⟩

end Args

end Aurisys
