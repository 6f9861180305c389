import Aurisys.Lib.Numeral
import Mathlib.Data.Int.Basic

/-!
# Formatted output

`vprintf` goes through the format and puts out what it says, byte by byte.

The flags and the width are read by one loop, which takes each zero for a flag. So a width loses its
zeroes, and the number is filled with zeroes. And the sign is put out before the blanks that should
be in front of it.

## Main definitions

* `toDigits`, `emitNumber`, `readFlags`, `conversion`, `vprintf` — the code
* `Flag`, `Conv`, `cOutput` — what C says of `%d`, `%u` and `%x`
* `Formats` — a conversion is put out as C says

## Main results

* `vprintf_spec`
* `formats_iff`
-/

namespace Aurisys

namespace Print

/-! ## The code -/

/-- `kDigits`. -/
def kDigits : List UInt8 :=
  [0x30, 0x31, 0x32, 0x33, 0x34, 0x35, 0x36, 0x37, 0x38, 0x39, 0x41, 0x42, 0x43, 0x44, 0x45, 0x46]

def digitChar (d : ℕ) : UInt8 := kDigits.getD d 0

/-- The loop of `to_digits`: the last digit comes first. -/
def digitLoop (base : ℕ) : ℕ → ℕ → List UInt8
  | 0, _ => []
  | fuel + 1, v => if v = 0 then [] else digitChar (v % base) :: digitLoop base fuel (v / base)

/-- `to_digits`. There are no more than 32 digits. -/
def toDigits (v : UInt32) (base : ℕ) : List UInt8 :=
  if v = 0 then [0x30] else digitLoop base 32 v.toNat

/-- `emit_number`. -/
def emitNumber (dig : List UInt8) (width : ℤ) (zero left : Bool) (sign : Option UInt8) :
    List UInt8 :=
  let total : ℤ := dig.length + sign.toList.length
  let pad := (width - total).toNat
  sign.toList ++ (if total < width ∧ left = false then List.replicate pad (if zero then 0x30
    else 0x20) else []) ++
    dig.reverse ++ (if left then List.replicate pad 0x20 else [])

/-- What is read in front of a conversion. -/
structure Flags where
  left : Bool
  zero : Bool
  width : ℤ

/-- The loop that reads it. -/
def readFlags : Flags → List UInt8 → Flags × List UInt8
  | f, [] => (f, [])
  | f, c :: fmt =>
    if c = 0x2D then readFlags { f with left := true } fmt
    else if c = 0x30 then readFlags { f with zero := true } fmt
    else if 0x31 ≤ c ∧ c ≤ 0x39 then
      readFlags { f with width := (f.width * 10 + (c.toNat - 0x30 : ℕ)).bmod (2 ^ 32) } fmt
    else (f, c :: fmt)

/-- What is handed over behind the format. -/
inductive Arg
  | word (v : UInt32)
  | wide (v : UInt64)
  | str (s : Option (List UInt8))

/-- `va_arg` of four bytes. -/
def Arg.asWord : Option Arg → UInt32
  | some (.word v) => v
  | _ => 0

/-- `va_arg` of eight bytes. -/
def Arg.asWide : Option Arg → UInt64
  | some (.wide v) => v
  | _ => 0

/-- `va_arg` of a string. -/
def Arg.asStr : Option Arg → Option (List UInt8)
  | some (.str s) => s
  | _ => none

/-- The sign of an `int`. -/
def signOf (v : UInt32) : Option UInt8 := if 2 ^ 31 ≤ v.toNat then some 0x2D else none

/-- `u`: the number without its sign. -/
def magnitude (v : UInt32) : UInt32 := if 2 ^ 31 ≤ v.toNat then 0 - v else v

/-- The sixteen digits of `%lx`. -/
def wideDigits (v : UInt64) : List UInt8 :=
  (List.range 16).map fun i => digitChar (v.toNat / 16 ^ (15 - i) % 16)

/-- A string in its field. -/
def emitStr (s : List UInt8) (f : Flags) : List UInt8 :=
  let pad := List.replicate (f.width - s.length).toNat 0x20
  if f.left then s ++ pad else pad ++ s

/-- The switch of `vprintf`: what is put out, and where the format and the arguments go on. A format
that ends inside a conversion is at its end then, where the code steps past its zero. -/
def conversion (f : Flags) (fmt : List UInt8) (args : List Arg) :
    List UInt8 × List UInt8 × List Arg :=
  match fmt with
  -- The zero at the end of the format is put out, too.
  | [] => ([0x25, 0], [], args)
  | c :: rest =>
    let v := Arg.asWord args.head?
    if c = 0x64 ∨ c = 0x69 then
      (emitNumber (toDigits (magnitude v) 10) f.width f.zero f.left (signOf v), rest, args.tail)
    else if c = 0x75 then (emitNumber (toDigits v 10) f.width f.zero f.left none, rest, args.tail)
    else if c = 0x78 ∨ c = 0x58 then (emitNumber (toDigits v 16) f.width f.zero f.left none,
      rest, args.tail)
    else if c = 0x70 then ([0x30, 0x78] ++ emitNumber (toDigits v 16) 8 true false none,
      rest, args.tail)
    else if c = 0x6C then
      if rest.head? = some 0x78 ∨ rest.head? = some 0x58 then
        ([0x30, 0x78] ++ wideDigits (Arg.asWide args.head?), rest.tail, args.tail)
      else ([], rest.tail, args)
    else if c = 0x73 then
      (emitStr ((Arg.asStr args.head?).getD [0x28, 0x6E, 0x75, 0x6C, 0x6C, 0x29]) f,
        rest, args.tail)
    else if c = 0x63 then ([v.toUInt8], rest, args.tail)
    else if c = 0x25 then ([0x25], rest, args)
    else ([0x25, c], rest, args)

/-- The loop of `vprintf`. -/
def vprintfLoop : ℕ → List UInt8 → List Arg → List UInt8
  | 0, _, _ => []
  | _, [], _ => []
  | fuel + 1, c :: fmt, args =>
    if c ≠ 0x25 then c :: vprintfLoop fuel fmt args
    else if fmt = [] then []
    else
      let r := readFlags ⟨false, false, 0⟩ fmt
      let o := conversion r.1 r.2 args
      o.1 ++ vprintfLoop fuel o.2.1 o.2.2

/-- `vprintf`: all that it puts out. Each turn takes a byte of the format. -/
def vprintf (fmt : List UInt8) (args : List Arg) : List UInt8 := vprintfLoop fmt.length fmt args

/-! ## What C says -/

inductive Flag
  | minus
  | zero
  deriving DecidableEq

def Flag.char : Flag → UInt8
  | minus => 0x2D
  | zero => 0x30

inductive Conv
  | d
  | u
  | x

def Conv.char : Conv → UInt8
  | d => 0x64
  | u => 0x75
  | x => 0x78

def Conv.base : Conv → ℕ
  | d => 10
  | u => 10
  | x => 16

/-- The value of an argument. -/
def Conv.value (v : UInt32) : Conv → ℤ
  | d => if 2 ^ 31 ≤ v.toNat then (v.toNat : ℤ) - 2 ^ 32 else v.toNat
  | u => v.toNat
  | x => v.toNat

/-- The sign of a value. -/
def Conv.sign (v : UInt32) (k : Conv) : List UInt8 := if k.value v < 0 then [0x2D] else []

/-- The digits of a value. -/
def Conv.digits (v : UInt32) (k : Conv) : List UInt8 :=
  (numeral k.base (k.value v).natAbs).map digitChar

/-- The digits of a width, if there is one. -/
def widthDigits (width : ℕ) : List ℕ := if width = 0 then [] else numeral 10 width

/-- A conversion as it is in the format. -/
def spec (flags : List Flag) (width : ℕ) (k : Conv) : List UInt8 :=
  0x25 :: (flags.map Flag.char ++ (widthDigits width).map digitChar ++ [k.char])

/-- **What C puts out.** -/
def cOutput (flags : List Flag) (width : ℕ) (k : Conv) (v : UInt32) : List UInt8 :=
  let sign := k.sign v
  let digits := k.digits v
  let pad := width - (sign ++ digits).length
  if .minus ∈ flags then sign ++ digits ++ List.replicate pad 0x20
  else if .zero ∈ flags then sign ++ List.replicate pad 0x30 ++ digits
  else List.replicate pad 0x20 ++ sign ++ digits

/-- **A conversion is put out as C says**, and `vprintf` goes on behind it. -/
def Formats (flags : List Flag) (width : ℕ) (k : Conv) (v : UInt32) : Prop :=
  ∀ rest args, vprintf (spec flags width k ++ rest) (.word v :: args) = cOutput flags width k
    v ++ vprintf rest args

/-! ## Digits -/

theorem digitLoop_eq {base : ℕ} (hb : 1 < base) : ∀ fuel v : ℕ, v < base ^ fuel →
    digitLoop base fuel v = (Nat.digits base v).map digitChar
  | 0, v, h => by
    have hv : v = 0 := by simpa using h
    rw [hv, Nat.digits_zero]
    rfl
  | fuel + 1, v, h => by
    rw [digitLoop]
    by_cases hv : v = 0
    · rw [if_pos hv, hv, Nat.digits_zero, List.map_nil]
    · have hlt : v / base < base ^ fuel := Nat.div_lt_of_lt_mul (by rwa [← Nat.pow_succ'])
      rw [if_neg hv, Nat.digits_def' hb (Nat.pos_of_ne_zero hv), List.map_cons,
        digitLoop_eq hb fuel _ hlt]

/-- **The digits the right way round.** -/
theorem toDigits_reverse {base : ℕ} (hb : 1 < base) (v : UInt32) :
    (toDigits v base).reverse = (numeral base v.toNat).map digitChar := by
  rw [toDigits]
  by_cases hv : v = 0
  · rw [if_pos hv, hv, UInt32.toNat_zero, numeral_zero]
    rfl
  · have hn : v.toNat ≠ 0 := fun h => hv (UInt32.toNat_inj.mp h)
    have hlt : v.toNat < base ^ 32 := v.toNat_lt.trans_le (Nat.pow_le_pow_left hb 32)
    rw [if_neg hv, digitLoop_eq hb 32 _ hlt, numeral_of_ne hn, List.map_reverse]

/-- The sign that goes with a conversion. -/
def Conv.signOf (v : UInt32) : Conv → Option UInt8
  | d => Print.signOf v
  | u => none
  | x => none

/-- And the number without it. -/
def Conv.magnitude (v : UInt32) : Conv → UInt32
  | d => Print.magnitude v
  | u => v
  | x => v

theorem Conv.toList_signOf (v : UInt32) (k : Conv) : (k.signOf v).toList = k.sign v := by
  have hv := v.toNat_lt
  cases k with
  | d =>
    by_cases h : 2 ^ 31 ≤ v.toNat
    · have hneg : Conv.d.value v < 0 := by
        rw [Conv.value, if_pos h]
        omega
      rw [Conv.signOf, Print.signOf, if_pos h, Conv.sign, if_pos hneg]
      rfl
    · have hneg : ¬ Conv.d.value v < 0 := by
        rw [Conv.value, if_neg h]
        omega
      rw [Conv.signOf, Print.signOf, if_neg h, Conv.sign, if_neg hneg]
      rfl
  | u => exact (if_neg (not_lt.mpr (Int.natCast_nonneg v.toNat))).symm
  | x => exact (if_neg (not_lt.mpr (Int.natCast_nonneg v.toNat))).symm

theorem Conv.toNat_magnitude (v : UInt32) (k : Conv) :
    (k.magnitude v).toNat = (k.value v).natAbs := by
  have hv := v.toNat_lt
  cases k with
  | d =>
    by_cases h : 2 ^ 31 ≤ v.toNat
    · rw [Conv.magnitude, Print.magnitude, Conv.value, if_pos h, if_pos h,
        UInt32.toNat_sub, UInt32.toNat_zero]
      omega
    · rw [Conv.magnitude, Print.magnitude, Conv.value, if_neg h, if_neg h]
      omega
  | u => exact (Int.natAbs_natCast v.toNat).symm
  | x => exact (Int.natAbs_natCast v.toNat).symm

theorem Conv.one_lt_base (k : Conv) : 1 < k.base := by
  cases k <;> decide

/-- **The digits are those of the value.** -/
theorem Conv.toDigits_magnitude (v : UInt32) (k : Conv) :
    (toDigits (k.magnitude v) k.base).reverse = k.digits v := by
  rw [toDigits_reverse k.one_lt_base, k.toNat_magnitude, Conv.digits]

/-! ## Flags and width -/

theorem readFlags_flags (flags : List Flag) (f : Flags) (rest : List UInt8) :
    readFlags f (flags.map Flag.char ++ rest) =
      readFlags ⟨f.left || decide (.minus ∈ flags), f.zero || decide (.zero ∈ flags),
        f.width⟩ rest := by
  induction flags generalizing f with
  | nil => simp
  | cons a flags ih =>
    cases a with
    | minus =>
      show readFlags { f with left := true } (flags.map Flag.char ++ rest) = _
      rw [ih]
      simp
    | zero =>
      show readFlags { f with zero := true } (flags.map Flag.char ++ rest) = _
      rw [ih]
      simp

/-- What a digit does to the width: a zero is a flag. -/
def widthStep (w : ℤ) (d : ℕ) : ℤ := if d = 0 then w else (w * 10 + d).bmod (2 ^ 32)

theorem digitChar_spec : ∀ d < 10, digitChar d ≠ 0x2D ∧ (digitChar d = 0x30 ↔ d = 0) ∧
    (d ≠ 0 → 0x31 ≤ digitChar d ∧ digitChar d ≤ 0x39) ∧ (digitChar d).toNat - 0x30 = d := by
  decide

theorem readFlags_width (ds : List ℕ) (hds : ∀ d ∈ ds, d < 10) (f : Flags) (rest : List UInt8) :
    readFlags f (ds.map digitChar ++ rest) =
      readFlags ⟨f.left, f.zero || decide (0 ∈ ds), ds.foldl widthStep f.width⟩ rest := by
  induction ds generalizing f with
  | nil => simp
  | cons d ds ih =>
    obtain ⟨hminus, hzero, hdigit, hval⟩ := digitChar_spec d (hds d List.mem_cons_self)
    have ih := ih fun e he => hds e (List.mem_cons_of_mem d he)
    rw [List.map_cons, List.cons_append, readFlags, if_neg hminus]
    by_cases hd : d = 0
    · rw [if_pos (hzero.mpr hd), ih, List.foldl_cons, widthStep, if_pos hd]
      simp [hd]
    · have hmem : (0 ∈ d :: ds) ↔ 0 ∈ ds := by simp [Ne.symm hd]
      rw [if_neg (fun h => hd (hzero.mp h)), if_pos (hdigit hd), ih, List.foldl_cons,
        widthStep, if_neg hd, hval]
      simp only [hmem]

theorem readFlags_conv (k : Conv) (f : Flags) (rest : List UInt8) :
    readFlags f (k.char :: rest) = (f, k.char :: rest) := by
  cases k <;> rfl

theorem lt_of_mem_widthDigits {W d : ℕ} (hd : d ∈ widthDigits W) : d < 10 := by
  rw [widthDigits] at hd
  split at hd
  · exact absurd hd List.not_mem_nil
  · exact lt_of_mem_numeral (by decide) hd

/-- The width that the code has read. -/
def codeWidth (W : ℕ) : ℤ := (widthDigits W).foldl widthStep 0

/-- **What is read in front of a conversion.** -/
theorem readFlags_spec (flags : List Flag) (W : ℕ) (k : Conv) (rest : List UInt8) :
    readFlags ⟨false, false, 0⟩ (flags.map Flag.char ++ (widthDigits W).map
      digitChar ++ [k.char] ++ rest) =
      (⟨decide (.minus ∈ flags), decide (.zero ∈ flags) || decide (0 ∈ widthDigits W), codeWidth W⟩,
        k.char :: rest) := by
  rw [List.append_assoc, List.append_assoc, readFlags_flags,
    readFlags_width _ fun d hd => lt_of_mem_widthDigits hd]
  show readFlags _ (k.char :: rest) = _
  rw [readFlags_conv, Bool.false_or, Bool.false_or, codeWidth]

theorem conversion_conv (k : Conv) (f : Flags) (rest : List UInt8) (v : UInt32) (args : List Arg) :
    conversion f (k.char :: rest) (.word v :: args) =
      (emitNumber (toDigits (k.magnitude v) k.base) f.width f.zero f.left (k.signOf v),
        rest, args) := by
  cases k <;> rfl

/-! ## The loop -/

theorem length_readFlags (f : Flags) (fmt : List UInt8) :
    (readFlags f fmt).2.length ≤ fmt.length := by
  induction fmt generalizing f with
  | nil => exact Nat.le_refl 0
  | cons c fmt ih =>
    rw [readFlags]
    split
    · exact (ih _).trans (Nat.le_succ _)
    · split
      · exact (ih _).trans (Nat.le_succ _)
      · split
        · exact (ih _).trans (Nat.le_succ _)
        · exact Nat.le_refl _

theorem length_conversion (f : Flags) (fmt : List UInt8) (args : List Arg) :
    (conversion f fmt args).2.1.length ≤ fmt.length := by
  cases fmt with
  | nil => exact Nat.le_refl 0
  | cons c rest =>
    have htail : rest.tail.length ≤ rest.length := by simp
    simp only [conversion, List.length_cons]
    split_ifs <;> simp only [] <;> omega

/-- **More turns than bytes change nothing.** -/
theorem vprintfLoop_eq : ∀ (n m : ℕ) (fmt : List UInt8) (args : List Arg), fmt.length ≤ n →
    fmt.length ≤ m →
    vprintfLoop n fmt args = vprintfLoop m fmt args
  | 0, 0, _, _, _, _ => rfl
  | 0, m + 1, fmt, args, hn, _ => by
    rw [List.length_eq_zero_iff.mp (Nat.le_zero.mp hn)]
    rfl
  | n + 1, 0, fmt, args, _, hm => by
    rw [List.length_eq_zero_iff.mp (Nat.le_zero.mp hm)]
    rfl
  | n + 1, m + 1, [], _, _, _ => rfl
  | n + 1, m + 1, c :: fmt, args, hn, hm => by
    have hn : fmt.length ≤ n := Nat.le_of_succ_le_succ hn
    have hm : fmt.length ≤ m := Nat.le_of_succ_le_succ hm
    have hlen :=
      (length_conversion (readFlags ⟨false, false, 0⟩ fmt).1 (readFlags ⟨false, false, 0⟩ fmt).2
      args).trans (length_readFlags ⟨false, false, 0⟩ fmt)
    simp only [vprintfLoop]
    rw [vprintfLoop_eq n m fmt args hn hm, vprintfLoop_eq n m _ _ (hlen.trans hn) (hlen.trans hm)]

/-- **A conversion is put out, and the format goes on behind it.** -/
theorem vprintf_spec (flags : List Flag) (W : ℕ) (k : Conv) (v : UInt32) (rest : List UInt8)
    (args : List Arg) :
    vprintf (spec flags W k ++ rest) (.word v :: args) =
      emitNumber (toDigits (k.magnitude v) k.base) (codeWidth W)
        (decide (.zero ∈ flags) || decide (0 ∈ widthDigits W)) (decide (.minus ∈ flags))
        (k.signOf v) ++
      vprintf rest args := by
  have hread := readFlags_spec flags W k rest
  rw [vprintf, spec, List.cons_append, List.length_cons]
  generalize flags.map Flag.char ++ (widthDigits W).map digitChar ++ [k.char] ++ rest =
    fmt at hread ⊢
  have hne : fmt ≠ [] := by
    rintro rfl
    exact List.cons_ne_nil _ _ (congrArg Prod.snd hread).symm
  have hlen : rest.length ≤ fmt.length := by
    have h := length_readFlags ⟨false, false, 0⟩ fmt
    rw [hread] at h
    exact (Nat.le_succ _).trans h
  simp only [vprintfLoop, ne_eq, not_true_eq_false, if_false, if_neg hne, hread, conversion_conv]
  rw [vprintf, vprintfLoop_eq _ _ rest args hlen (Nat.le_refl _)]

/-! ## The width -/

theorem le_foldl (ds : List ℕ) (a : ℕ) : a ≤ ds.foldl (fun a d => a * 10 + d) a := by
  induction ds generalizing a with
  | nil => exact Nat.le_refl a
  | cons d ds ih => exact (show a ≤ a * 10 + d by omega).trans (ih _)

/-- **A width that is read without its zeroes comes to less**: what is read stays below the width as
soon as a zero stands behind another digit. -/
theorem foldl_widthStep (ds : List ℕ) (w a : ℕ) (hwa : w ≤ a)
    (hval : ds.foldl (fun a d => a * 10 + d) a < 2 ^ 31) :
    ∃ n : ℕ, ds.foldl widthStep (w : ℤ) = n ∧ n ≤ ds.foldl (fun a d => a * 10 + d) a ∧
      (w < a ∨ 0 ∈ ds ∧ 0 < a → n < ds.foldl (fun a d => a * 10 + d) a) ∧
      (0 ∉ ds ∧ w = a → n = ds.foldl (fun a d => a * 10 + d) a) := by
  induction ds generalizing w a with
  | nil =>
    refine ⟨w, rfl, hwa, ?_, fun h => h.2⟩
    rintro (h | h)
    · exact h
    · exact absurd h.1 List.not_mem_nil
  | cons d ds ih =>
    rw [List.foldl_cons] at hval ⊢
    rw [List.foldl_cons]
    by_cases hd : d = 0
    · subst hd
      obtain ⟨n, hn, hle, hlt, _⟩ := ih w (a * 10 + 0) (by omega) hval
      refine ⟨n, by rwa [widthStep, if_pos rfl], hle, fun h => hlt (Or.inl (by omega)), ?_⟩
      exact fun h => absurd List.mem_cons_self h.1
    · have hbound : a * 10 + d ≤ ds.foldl (fun a d => a * 10 + d) (a * 10 + d) := le_foldl ds _
      have hstep : widthStep (w : ℤ) d = ((w * 10 + d : ℕ) : ℤ) := by
        rw [widthStep, if_neg hd, Int.bmod_eq_of_le (by omega) (by omega)]
        push_cast
        rfl
      have hmem : (0 ∈ d :: ds) ↔ 0 ∈ ds := by simp [Ne.symm hd]
      obtain ⟨n, hn, hle, hlt, heq⟩ := ih (w * 10 + d) (a * 10 + d) (by omega) hval
      refine ⟨n, by rwa [hstep], hle, fun h => hlt ?_, fun h => heq ?_⟩
      · rw [hmem] at h
        exact h.imp (fun h => by omega) fun h => ⟨h.1, by omega⟩
      · rw [hmem] at h
        exact ⟨h.1, by rw [h.2]⟩

theorem foldl_widthStep_lt (ds : List ℕ) (w : ℤ) (hw : w < 2 ^ 31) :
    ds.foldl widthStep w < 2 ^ 31 := by
  induction ds generalizing w with
  | nil => exact hw
  | cons d ds ih =>
    refine ih _ ?_
    rw [widthStep]
    split
    · exact hw
    · exact Int.bmod_lt (by decide)

theorem codeWidth_lt (W : ℕ) : codeWidth W < 2 ^ 31 :=
  foldl_widthStep_lt _ 0 (by decide)

/-- What is read of a width. -/
theorem codeWidth_spec {W : ℕ} (hW : W < 2 ^ 31) :
    ∃ n : ℕ, codeWidth W = n ∧ n ≤ W ∧ (n = W ↔ 0 ∉ widthDigits W) := by
  by_cases h0 : W = 0
  · subst h0
    refine ⟨0, rfl, Nat.le_refl 0, ?_⟩
    rw [widthDigits, if_pos rfl]
    simp
  · obtain ⟨d, ds, hds, hd⟩ := numeral_eq_cons (b := 10) h0
    have hval := foldl_numeral 10 W
    have hlt : d < 10 := lt_of_mem_numeral (by decide) (hds ▸ List.mem_cons_self)
    have hmem : (0 ∈ d :: ds) ↔ 0 ∈ ds := by simp [Ne.symm hd]
    rw [hds, List.foldl_cons, Nat.zero_mul, Nat.zero_add] at hval
    obtain ⟨n, hn, hle, hless, heq⟩ := foldl_widthStep ds d d (Nat.le_refl d) (by rwa [hval])
    rw [hval] at hle hless heq
    have hstep : widthStep 0 d = d := by
      rw [widthStep, if_neg hd, zero_mul, zero_add, Int.bmod_eq_of_le (by omega) (by omega)]
    refine ⟨n, ?_, hle, ?_⟩
    · rw [codeWidth, widthDigits, if_neg h0, hds, List.foldl_cons, hstep, hn]
    · rw [widthDigits, if_neg h0, hds, hmem]
      constructor
      · intro h hz
        have := hless (Or.inr ⟨hz, Nat.pos_of_ne_zero hd⟩)
        omega
      · exact fun hz => heq ⟨hz, rfl⟩

theorem codeWidth_le (W : ℕ) : codeWidth W ≤ W := by
  by_cases hW : W < 2 ^ 31
  · obtain ⟨n, hn, hle, _⟩ := codeWidth_spec hW
    rw [hn]
    exact Int.ofNat_le.mpr hle
  · have := codeWidth_lt W
    omega

/-- **A width is read as it is when none of its digits is a zero.** -/
theorem codeWidth_eq_iff (W : ℕ) : codeWidth W = W ↔ 0 ∉ widthDigits W ∧ W < 2 ^ 31 := by
  by_cases hW : W < 2 ^ 31
  · obtain ⟨n, hn, _, hiff⟩ := codeWidth_spec hW
    rw [hn, Int.natCast_inj, hiff]
    exact (and_iff_left hW).symm
  · have := codeWidth_lt W
    constructor
    · intro h
      omega
    · exact fun h => absurd h.2 hW

/-! ## The padding -/

/-- What is put out when the number and its sign are known. -/
theorem emitNumber_eq (dig : List UInt8) (w : ℤ) (zero left : Bool) (sign : Option UInt8) :
    emitNumber dig w zero left sign =
      if left then
        sign.toList ++ dig.reverse ++ List.replicate (w - (sign.toList ++ dig.reverse).length).toNat
        0x20
      else
        sign.toList ++ List.replicate (w - (sign.toList ++ dig.reverse).length).toNat
        (if zero then 0x30 else 0x20) ++
          dig.reverse := by
  have htotal : ((sign.toList ++ dig.reverse).length : ℤ) = dig.length + sign.toList.length := by
    rw [List.length_append, List.length_reverse]
    push_cast
    exact Int.add_comm _ _
  rw [emitNumber, htotal]
  cases left with
  | true => simp
  | false =>
    by_cases hlt : (dig.length : ℤ) + sign.toList.length < w
    · simp [hlt]
    · have hpad : (w - ((dig.length : ℤ) + sign.toList.length)).toNat = 0 := by omega
      simp [hlt, hpad]

/-- The blanks are as many as they should be when nothing is missing or the width has been read. -/
theorem pad_eq_iff (W total : ℕ) : (codeWidth W - total).toNat = W - total ↔ W ≤ total ∨
    codeWidth W = W := by
  have := codeWidth_le W
  omega

theorem formats_iff_eq (flags : List Flag) (W : ℕ) (k : Conv) (v : UInt32) :
    Formats flags W k v ↔
      emitNumber (toDigits (k.magnitude v) k.base) (codeWidth W)
        (decide (.zero ∈ flags) || decide (0 ∈ widthDigits W)) (decide (.minus ∈ flags))
        (k.signOf v) =
      cOutput flags W k v := by
  simp only [Formats, vprintf_spec, List.append_left_inj]
  exact ⟨fun h => h [] [], fun h _ _ => h⟩

/-- A number that is not negative has no sign. -/
theorem Conv.sign_eq_nil_iff (v : UInt32) (k : Conv) : k.sign v = [] ↔ 0 ≤ k.value v := by
  rw [Conv.sign]
  split
  · exact iff_of_false (List.cons_ne_nil _ _) (not_le.mpr ‹_›)
  · exact iff_of_true rfl (not_lt.mp ‹_›)

/-- Blanks stand behind the sign only when there are none of them, or no sign. -/
theorem sign_blanks_iff (n : ℕ) (s : List UInt8) (k : Conv) (v : UInt32) :
    k.sign v ++ List.replicate n 0x20 ++ s = List.replicate n 0x20 ++ k.sign v ++ s ↔
    n = 0 ∨ k.sign v = [] := by
  rw [List.append_left_inj, Conv.sign]
  split
  · cases n with
    | zero => simp
    | succ n =>
      have hne : (0x2D : UInt8) ≠ 0x20 := by decide
      simp [List.replicate_succ, hne]
  · simp

/-- **A conversion is put out as C says** when the number fills its field, or no digit of the width
is a zero and no sign comes before blanks. -/
theorem formats_iff (flags : List Flag) (W : ℕ) (k : Conv) (v : UInt32) :
    Formats flags W k v ↔ W ≤ (k.sign v ++ k.digits v).length ∨
      (0 ∉ widthDigits W ∧ W < 2 ^ 31 ∧ (.minus ∈ flags ∨ .zero ∈ flags ∨ 0 ≤ k.value v)) := by
  rw [formats_iff_eq, emitNumber_eq, Conv.toList_signOf, Conv.toDigits_magnitude, cOutput]
  have hpad := pad_eq_iff W (k.sign v ++ k.digits v).length
  rw [codeWidth_eq_iff] at hpad
  generalize (codeWidth W - (k.sign v ++ k.digits v).length).toNat = pad at hpad ⊢
  by_cases hminus : Flag.minus ∈ flags
  · simp only [hminus, decide_true, if_true, List.append_right_inj, List.replicate_left_inj,
      true_or, and_true]
    exact hpad
  · by_cases hzero : Flag.zero ∈ flags
    · simp only [hminus, hzero, decide_true, decide_false, Bool.true_or, if_true, if_false,
        List.append_left_inj,
        List.append_right_inj, List.replicate_left_inj, true_or, or_true,
        and_true, Bool.false_eq_true]
      exact hpad
    · simp only [hminus, hzero, decide_false, Bool.false_or, Bool.false_eq_true, if_false, false_or]
      by_cases hW : W ≤ (k.sign v ++ k.digits v).length
      · have hnone : W - (k.sign v ++ k.digits v).length = 0 := Nat.sub_eq_zero_of_le hW
        rw [hpad.mpr (Or.inl hW), hnone]
        exact iff_of_true (by simp) (Or.inl hW)
      · rw [or_iff_right hW] at hpad ⊢
        rw [← and_assoc, ← hpad, ← k.sign_eq_nil_iff v]
        constructor
        · intro h
          -- The two are as long as each other, so the blanks are as many as they should be.
          have hlen : pad = W - (k.sign v ++ k.digits v).length := by
            have := congrArg List.length h
            simp only [List.length_append, List.length_replicate] at this ⊢
            omega
          rw [if_neg (by simpa using (hpad.mp hlen).1), hlen] at h
          exact ⟨hlen, ((sign_blanks_iff _ _ k v).mp h).resolve_left (by omega)⟩
        · rintro ⟨hlen, hsign⟩
          rw [if_neg (by simpa using (hpad.mp hlen).1), hlen]
          exact (sign_blanks_iff _ _ k v).mpr (Or.inr hsign)

/-- A width of ten is read as a width of one, with a flag. -/
theorem not_formats_ten : ¬ Formats [] 10 .d 42 := fun h => absurd (h [] []) (by decide)

end Print

end Aurisys
