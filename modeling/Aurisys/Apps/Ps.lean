import Aurisys.Lib.Decimal
import Aurisys.Lib.Steps

/-!
# The times that `ps` prints

`ps` reads the two times of a process from its line in `/proc`, and writes the digits of their sum
to `total`, the last digit first. The loop is to go on as long as there is something left of the
sum. But what is left is computed from the sum each time, and not from what was left before: it is
the same in each turn.

## Main definitions

* `field`, `number`, `times` — the times of a line
* `turn`, `again`, `reverseLoop` — the loop of digits, and the one that turns them round
* `Prints` — the sum is printed

## Main results

* `prints_iff`
-/

namespace Aurisys

namespace Ps

open Decimal

/-- What `field` takes for a blank; a `char` has a sign. -/
def isBlank (c : UInt8) : Bool := c ≤ 0x20 ∨ 0x80 ≤ c

/-- `field`: what it stores, and where it goes on. -/
def field (p : List UInt8) (outsz : ℕ) : List UInt8 × List UInt8 :=
  let p := p.dropWhile isBlank
  let out := (p.takeWhile fun c => !isBlank c).take (outsz - 1)
  (out, (p.drop out.length).tail)

/-- The loops that read `utime` and `ktime`. With seven digits nothing is lost in an `unsigned`. -/
def number (s : List UInt8) : ℕ :=
  (s.takeWhile isDigit).foldl (fun u c => u * 10 + (c.toNat - 0x30)) 0

/-- What is behind the parentheses. -/
def behindName (line : List UInt8) : List UInt8 :=
  let body := (line.dropWhile (· ≠ 0x28)).tail
  (body.dropWhile (· ≠ 0x29)).tail

/-- `u` and `kk`. -/
def times (line : List UInt8) : ℕ × ℕ :=
  let rest := (field (field (behindName line) 8).2 8).2
  (number (field rest 8).1, number (field (field rest 8).2 8).1)

/-- A turn of the loop: `total` as far as `w`. -/
def turn (u kk : ℕ) (total : List UInt8) : List UInt8 :=
  total ++ [UInt8.ofNat (0x30 + (u + kk) % 10)]

/-- The loop goes on while `t` is not zero. -/
def again (u kk : ℕ) (total : List UInt8) : Option (List UInt8) :=
  if (u + kk) / 10 ≠ 0 then some (turn u kk total) else none

/-- The loop that swaps the digits, from both ends. -/
def reverseLoop : ℕ → ℕ → ℕ → List UInt8 → List UInt8
  | 0, _, _, l => l
  | k + 1, a, b, l =>
    if a < b then reverseLoop k (a + 1) (b - 1) ((l.set a (l.getD b 0)).set b (l.getD a 0)) else l

/-- The loop ends, has written fifteen digits at most, and they are the sum when they have been
turned round. -/
def Prints (line : List UInt8) : Prop :=
  let u := (times line).1
  let kk := (times line).2
  ∃ k total, Steps.runFor (again u kk) k (turn u kk []) = some total ∧ total.length ≤ 15 ∧
    reverseLoop total.length 0 (total.length - 1) total =
      (numeral 10 (u + kk)).map fun d => UInt8.ofNat (0x30 + d)

/-! ## The loop -/

variable {u kk k : ℕ} {total : List UInt8}

/-- What is left is the same in each turn. -/
theorem runFor_again (h : 10 ≤ u + kk) : Steps.runFor (again u kk) k total = none := by
  have hagain : ∀ l, again u kk l = some (turn u kk l) := fun l =>
    if_pos (Nat.div_pos h (by decide)).ne'
  induction k generalizing total with
  | zero => rfl
  | succ k ih => rw [Steps.runFor_of_some (hagain total), ih]

theorem runFor_one (h : u + kk < 10) : Steps.runFor (again u kk) 1 total = some total :=
  Steps.runFor_of_none (if_neg (not_not.mpr (Nat.div_eq_of_lt h)))

/-- **When `ps` prints the sum.** -/
theorem prints_iff (line : List UInt8) : Prints line ↔ (times line).1 + (times line).2 < 10 := by
  rw [Prints]
  generalize (times line).1 = u
  generalize (times line).2 = kk
  constructor
  · rintro ⟨k, total, hrun, -⟩
    by_contra h
    rw [runFor_again (not_lt.mp h)] at hrun
    exact absurd hrun nofun
  · intro h
    refine ⟨1, turn u kk [], runFor_one h, show 1 ≤ 15 by decide, ?_⟩
    rw [numeral_of_lt h, turn, Nat.mod_eq_of_lt h]
    rfl

/-- A process with a time of ten. -/
theorem not_prints_ten : ¬Prints [0x31, 0x28, 0x29, 0x20, 0x52, 0x20, 0x31, 0x20, 0x37,
      0x20, 0x33, 0x20] := by
  rintro ⟨k, total, hrun, -⟩
  have hten : 10 ≤ 7 + 3 := le_rfl
  exact absurd ((runFor_again hten).symm.trans hrun) nofun

end Ps

end Aurisys
