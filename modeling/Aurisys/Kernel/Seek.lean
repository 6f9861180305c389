import Aurisys.Kernel.Replace

/-!
# `lseek`

The offset is an `int` and the position a word. The new position is the sum of base and offset on 32
bits, and what is returned is that word read as an `int` again. So a sum of `2 ^ 31` or more moves
the position and returns a negative value, and one of `2 ^ 32` or more comes out at the start of the
file.

## Main definitions

* `OFile.lseek`, `Kernel.sysLseek`
* `SeekExact` — a call is refused, or the position is the sum
* `SeekSmall` — the sum is not too large

## Main results

* `lseek_exact_iff`
-/

namespace Aurisys

open Kernel

namespace OFile

/-- What an offset counts from. -/
def seekBase (e : OFile) (whence : UInt32) : Option ℕ :=
  if whence = 1 then some e.pos
  else if whence = 2 then some e.n.size
  else if whence ≠ 0 then none
  else some 0

/-- `lseek` once the descriptor is there. -/
def lseek (e : OFile) (off whence : UInt32) : ℤ × OFile :=
  match e.seekBase whence with
  | none => (-1, e)
  | some base =>
    if toInt off.toNat < 0 ∧ base < (2 ^ 32 - off.toNat) % 2 ^ 32 then (-1, e)
    else
      let pos := (base + off.toNat) % 2 ^ 32
      (toInt pos, { e with pos := pos })

end OFile

/-- The arguments of `lseek`, but for the descriptor. -/
structure SeekCall where
  off : UInt32
  whence : UInt32

/-- It is refused and the position stays, or the position is the sum, and so is what is returned. -/
def SeekExact (e : OFile) (c : SeekCall) : Prop :=
  ((e.lseek c.off c.whence).1 < 0 ∧ (e.lseek c.off c.whence).2.pos = e.pos) ∨
    ∃ base, e.seekBase c.whence = some base ∧ 0 ≤ base + toInt c.off.toNat ∧
      base + toInt c.off.toNat < 2 ^ 31 ∧
      (e.lseek c.off c.whence).2.pos = base + toInt c.off.toNat ∧
      (e.lseek c.off c.whence).1 = base + toInt c.off.toNat

/-- The sum is less than `2 ^ 31`, or it is where the position is already. -/
def SeekSmall (e : OFile) (c : SeekCall) : Prop :=
  ∀ base, e.seekBase c.whence = some base →
    base + toInt c.off.toNat < 2 ^ 31 ∨ base + toInt c.off.toNat = e.pos

namespace Kernel

variable {H : Type}

/-- `lseek`. -/
def sysLseek (k : Kernel H) (fd : Fin kMaxFd) (off whence : UInt32) : ℤ × Kernel H :=
  match k.fds fd with
  | none => (-1, k)
  | some e => ((e.lseek off whence).1, k.setFd fd (some (e.lseek off whence).2))

/-- A property of every call of a sequence, in the state it is made. -/
def AllSeeks (P : OFile → SeekCall → Prop) (fd : Fin kMaxFd) : Kernel H → List SeekCall → Prop
  | _, [] => True
  | k, c :: cs =>
    (∀ e, k.fds fd = some e → P e c) ∧ AllSeeks P fd (k.sysLseek fd c.off c.whence).2 cs

end Kernel

/-! ## One call -/

namespace OFile

variable {e : OFile} {c : SeekCall} {base : ℕ}

/-- The base is a word. -/
theorem seekBase_lt (hpos : e.pos < 2 ^ 32) (hsize : e.n.size < 2 ^ 32)
    (hb : e.seekBase c.whence = some base) : base < 2 ^ 32 := by
  rw [seekBase] at hb
  split at hb
  · exact Option.some.inj hb ▸ hpos
  · split at hb
    · exact Option.some.inj hb ▸ hsize
    · split at hb
      · cases hb
      · exact Option.some.inj hb ▸ Nat.two_pow_pos 32

/-- The size of the node stays. -/
theorem lseek_size (e : OFile) (off whence : UInt32) : (e.lseek off whence).2.n = e.n := by
  rw [lseek]
  split
  · rfl
  · split <;> rfl

/-- What an `int` is on 32 bits. -/
theorem toInt_cases (off : UInt32) :
    (off.toNat < 2 ^ 31 ∧ toInt off.toNat = off.toNat) ∨
      (2 ^ 31 ≤ off.toNat ∧ off.toNat < 2 ^ 32 ∧ toInt off.toNat = off.toNat - 2 ^ 32) := by
  have hlt := off.toNat_lt
  rw [toInt]
  by_cases h : off.toNat < 2 ^ 31
  · exact .inl ⟨h, if_pos h⟩
  · exact .inr ⟨by omega, hlt, if_neg h⟩

/-- The call with a `whence` there is. -/
theorem lseek_of_base (hb : e.seekBase c.whence = some base) : e.lseek c.off c.whence =
    if toInt c.off.toNat < 0 ∧ base < (2 ^ 32 - c.off.toNat) % 2 ^ 32 then (-1, e)
    else (toInt ((base + c.off.toNat) % 2 ^ 32),
      { e with pos := (base + c.off.toNat) % 2 ^ 32 }) := by
  rw [lseek, hb]

/-- The new position is a word, too. -/
theorem lseek_pos_lt (hpos : e.pos < 2 ^ 32) : (e.lseek c.off c.whence).2.pos < 2 ^ 32 := by
  rw [lseek]
  split
  · exact hpos
  · split
    · exact hpos
    · exact Nat.mod_lt _ (Nat.two_pow_pos 32)

/-- **When a call is exact.** -/
theorem seekExact_iff (hpos : e.pos < 2 ^ 32) (hsize : e.n.size < 2 ^ 32) :
    SeekExact e c ↔ SeekSmall e c := by
  rw [SeekExact, SeekSmall]
  cases hb : e.seekBase c.whence with
  | none =>
    have hs : e.lseek c.off c.whence = (-1, e) := by rw [lseek, hb]
    rw [hs]
    exact iff_of_true (.inl ⟨Int.negSucc_lt_zero 0, rfl⟩) nofun
  | some base =>
    have hbase := seekBase_lt hpos hsize hb
    have hoff := toInt_cases c.off
    rw [lseek_of_base hb]
    by_cases href : toInt c.off.toNat < 0 ∧ base < (2 ^ 32 - c.off.toNat) % 2 ^ 32
    · -- The sum is negative, and the call refused.
      rw [if_pos href]
      refine iff_of_true (.inl ⟨Int.negSucc_lt_zero 0, rfl⟩) ?_
      rintro _ ⟨⟩
      left
      omega
    · rw [if_neg href]
      have hsum : 0 ≤ base + toInt c.off.toNat := by omega
      have hmod : ((base + c.off.toNat) % 2 ^ 32 : ℕ) = (base + toInt c.off.toNat) % 2 ^ 32 := by
        omega
      generalize hp : (base + c.off.toNat) % 2 ^ 32 = p at hmod
      have hplt : p < 2 ^ 32 := hp ▸ Nat.mod_lt _ (Nat.two_pow_pos 32)
      constructor
      · rintro (⟨hneg, hstay⟩ | ⟨_, ⟨⟩, -, hlt, -, -⟩)
        · rintro _ ⟨⟩
          -- What is returned is negative, so the position is at least `2 ^ 31`: the sum does not
          -- wrap.
          have hbig : ¬p < 2 ^ 31 := fun h => by
            simp only [toInt, if_pos h] at hneg
            omega
          have hstay : p = e.pos := hstay
          right
          omega
        · rintro _ ⟨⟩
          exact .inl hlt
      · intro hsmall
        rcases hsmall base rfl with hlt | heq
        · have hp31 : p < 2 ^ 31 := by omega
          refine .inr ⟨base, rfl, hsum, hlt, ?_, ?_⟩
          · change (p : ℤ) = _
            omega
          · change toInt p = _
            rw [toInt, if_pos hp31]
            omega
        · have hpe : p = e.pos := by omega
          by_cases hp31 : p < 2 ^ 31
          · refine .inr ⟨base, rfl, hsum, by omega, ?_, ?_⟩
            · change (p : ℤ) = _
              omega
            · change toInt p = _
              rw [toInt, if_pos hp31]
              omega
          · refine .inl ⟨?_, hpe⟩
            change toInt p < 0
            rw [toInt, if_neg hp31]
            omega

end OFile

/-! ## Sequences -/

namespace Kernel

variable {H : Type} {k : Kernel H} {fd : Fin kMaxFd} {e : OFile}

/-- From the start of the file, as `load_into` calls it. -/
theorem lseek_eq (k : Kernel H) (fd : Fin kMaxFd) (off : UInt32) :
    k.lseek fd off.toNat = (k.sysLseek fd off 0).2 := by
  rw [lseek, sysLseek]
  cases hfd : k.fds fd with
  | none => rfl
  | some e =>
    have hb : e.seekBase (SeekCall.mk off 0).whence = some 0 := rfl
    have hoff := OFile.toInt_cases off
    have hself : k.setFd fd (some e) = k := by
      rw [setFd_eq, ← hfd, Function.update_eq_self, setFds_fds]
    simp only []
    rw [OFile.lseek_of_base hb]
    by_cases hneg : toInt off.toNat < 0
    · rw [if_pos hneg, if_pos ⟨hneg, by change 0 < (2 ^ 32 - off.toNat) % 2 ^ 32; omega⟩, hself]
    · rw [if_neg hneg, if_neg fun h => hneg h.1]
      change k.setFd fd (some { e with pos := off.toNat }) =
        k.setFd fd (some { e with pos := (0 + off.toNat) % 2 ^ 32 })
      rw [Nat.zero_add, Nat.mod_eq_of_lt off.toNat_lt]

theorem fds_setFd (k : Kernel H) (fd : Fin kMaxFd) (e : Option OFile) :
    (k.setFd fd e).fds fd = e := by
  rw [setFd_eq, fds_setFds, Function.update_self]

theorem fds_sysLseek (he : k.fds fd = some e) (off whence : UInt32) :
    (k.sysLseek fd off whence).2.fds fd = some (e.lseek off whence).2 := by
  rw [sysLseek, he]
  exact fds_setFd k fd _

/-- **When a sequence of calls is exact.** -/
theorem lseek_exact_iff (he : k.fds fd = some e) (hpos : e.pos < 2 ^ 32) (hsize : e.n.size < 2 ^ 32)
    (cs : List SeekCall) : AllSeeks SeekExact fd k cs ↔ AllSeeks SeekSmall fd k cs := by
  induction cs generalizing k e with
  | nil => exact Iff.rfl
  | cons c cs ih =>
    have hhead : (∀ f, k.fds fd = some f → SeekExact f c) ↔ ∀ f, k.fds fd = some f →
        SeekSmall f c := by
      rw [he]
      constructor
      · rintro h _ ⟨⟩
        exact (OFile.seekExact_iff hpos hsize).mp (h e rfl)
      · rintro h _ ⟨⟩
        exact (OFile.seekExact_iff hpos hsize).mpr (h e rfl)
    have hn := OFile.lseek_size e c.off c.whence
    exact and_congr hhead (ih (fds_sysLseek he c.off c.whence) (OFile.lseek_pos_lt hpos)
      (by rw [hn]; exact hsize))

/-- A process with a file of `size` bytes open, at `pos`. -/
def seeker (size pos : ℕ) : Kernel Pages.Bump :=
  (execCaller true).setFd 3 (some ⟨⟨[0x66], 12, .file, size, 0, .ext⟩, pos, 0⟩)

/-- To the tenth byte, three back from the end, and back behind the start. -/
theorem lseek_exact_short : AllSeeks SeekExact 3 (seeker 100 0)
    [⟨10, 0⟩, ⟨0xFFFFFFFD, 2⟩, ⟨0x80000000, 1⟩] ↔
    AllSeeks SeekSmall 3 (seeker 100 0) [⟨10, 0⟩, ⟨0xFFFFFFFD, 2⟩, ⟨0x80000000, 1⟩] :=
  lseek_exact_iff (fds_setFd _ 3 _) (by decide) (by decide) _

/-- Two times `2 ^ 31 - 1` forward, and two more. -/
theorem not_lseek_exact_far :
    ¬AllSeeks SeekExact 3 (seeker 100 0) [⟨0x7FFFFFFF, 1⟩, ⟨0x7FFFFFFF, 1⟩, ⟨2, 1⟩] := by
  intro h
  have hfirst :=
    fds_sysLseek (fds_setFd (execCaller true) 3 (some ⟨⟨[0x66], 12, .file, 100, 0, .ext⟩, 0, 0⟩))
    0x7FFFFFFF 1
  have hexact := h.2.1 _ hfirst
  revert hexact
  rw [SeekExact]
  rintro (⟨-, hstay⟩ | ⟨base, hb, -, hlt, -, -⟩)
  · exact absurd hstay (by decide)
  · obtain rfl : 0x7FFFFFFF = base := Option.some.inj hb
    exact absurd hlt (by decide)

end Kernel

end Aurisys
