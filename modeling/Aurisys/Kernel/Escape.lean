import Aurisys.Kernel.Console

/-!
# Parameters of an escape sequence

`g_param` has room for eight numbers, and the count of them goes on behind that. `csi_push` and the
head of the loop in `sgr` look at the count first. The forms of two to five parameters that set a
colour do not: they only make sure that the parameters are there.

## Main definitions

* `Console.FormsEnd` — the forms that begin in the array end in it
* `Console.Fits`, `Console.AllFit` — a byte, and each byte of a run

## Main results

* `Console.sgrFrom_inside`
* `Console.puts_inside_iff` — when all that is used of `g_param` is in it
-/

namespace Aurisys

open Fallible

namespace Console

variable {d : Display} {k k' : Console} {e : Escape} {c : UInt8} {param : ℤ → ℤ}
  {n i z : ℤ} {fuel : ℕ}

/-- A place of `g_param`. -/
def InParam (z : ℤ) : Prop := 0 ≤ z ∧ z < kMaxParam

instance (z : ℤ) : Decidable (InParam z) := inferInstanceAs (Decidable (_ ∧ _))

/-- How many parameters a turn of the loop in `sgr` takes. -/
def taken (param : ℤ → ℤ) (n i : ℤ) : ℤ :=
  let p := if i < kMaxParam then param i else 0
  if (p = 38 ∨ p = 48) ∧ i + 1 < n then
    if param (i + 1) = 2 ∧ i + 4 < n then 5 else if param (i + 1) = 5 ∧ i + 2 < n then 3 else 2
  else 1

/-- **The forms that begin in the array end in it**, from a parameter on. -/
def FormsEnd (param : ℤ → ℤ) (n : ℤ) : ℕ → ℤ → Prop
  | 0, _ => True
  | fuel + 1, i => i < n → (i < kMaxParam → i + taken param n i ≤ kMaxParam) ∧
      FormsEnd param n fuel (i + taken param n i)

/-- The byte does not make the console use what is around `g_param`: there are not so many
parameters that the count of them is negative, and at an `m` the forms end in the array. -/
def Fits (k : Console) (c : UInt8) : Prop :=
  k.esc.state = .inCsi → c = 0x3B ∨ (0x40 ≤ c ∧ c ≤ 0x7E) → 0 ≤ k.esc.nparam ∧
    (c = 0x6D → FormsEnd k.esc.push.param k.esc.push.nparam k.esc.push.nparam.toNat 0)

/-- Each byte fits when it is put. -/
def AllFit (d : Display) : List UInt8 → Console → Prop
  | [], _ => True
  | c :: l, k => Fits k c ∧ ∀ k', putchar d c k = some k' → AllFit d l k'

theorem sgrTurn_next (fg bg : UInt32) : (sgrTurn param n i fg bg).2.1 = i + taken param n i := by
  rw [sgrTurn, taken]
  split_ifs <;> rfl

theorem one_le_taken : 1 ≤ taken param n i := by
  rw [taken]
  split_ifs <;> decide

/-- What a turn of the loop in `sgr` looks at. -/
theorem sgrTurn_inside (hi : 0 ≤ i) (fg bg : UInt32) :
    (∀ z ∈ (sgrTurn param n i fg bg).2.2, InParam z) ↔
    (i < kMaxParam → i + taken param n i ≤ kMaxParam) := by
  by_cases hin : i < kMaxParam
  · simp only [sgrTurn, taken, forall_const, hin]
    split_ifs <;> simp [InParam] <;> omega
  · simp [sgrTurn, taken, hin]

theorem sgrFrom_inside (hi : 0 ≤ i) (fg bg : UInt32) :
    (∀ z ∈ (sgrFrom param n fuel i fg bg).2, InParam z) ↔ FormsEnd param n fuel i := by
  induction fuel generalizing i fg bg with
  | zero => exact iff_of_true (fun z hz => absurd hz List.not_mem_nil) trivial
  | succ fuel ih =>
    rw [sgrFrom, FormsEnd]
    split
    · next hn =>
        exact iff_of_true (fun z hz => absurd hz List.not_mem_nil) fun h => absurd h (not_lt.mpr hn)
    · next hn =>
      have hpos : 1 ≤ taken param n i := one_le_taken
      have hrest :
        (∀ z ∈ (sgrFrom param n fuel (sgrTurn param n i fg bg).2.1 (sgrTurn param n i fg bg).1.1
          (sgrTurn param n i fg bg).1.2).2, InParam z) ↔
          FormsEnd param n fuel (i + taken param n i) := by
        rw [sgrTurn_next]
        exact ih (by omega) _ _
      exact List.forall_mem_append.trans ((and_congr (sgrTurn_inside hi fg bg) hrest).trans
        ⟨fun h _ => h, fun h => h (not_le.mp hn)⟩)

/-- What `csi_push` uses. -/
theorem push_looked (e : Escape) : e.push.looked = if e.nparam < kMaxParam then e.nparam :: e.looked
    else e.looked := by
  rw [Escape.push]
  split <;> rfl

/-- What `csi_dispatch` looks at. -/
theorem csiDispatch_inside {s t : Screen} {looked : List ℤ}
    (h : (csiDispatch d e c).result s = some (looked, t)) :
    (∀ z ∈ looked, InParam z) ↔ (c = 0x6D → FormsEnd e.param e.nparam e.nparam.toNat 0) := by
  have hrun := exec_of_result h
  have hfirst : ∀ z ∈ [(0 : ℤ), 1], InParam z := by decide
  rw [csiDispatch] at hrun
  by_cases hm : c = 0x6D
  · rw [if_pos hm, exec_bind_of_some (show exec (sgr e) s = (some _, _) from rfl),
      exec_pure] at hrun
    obtain rfl := Option.some.inj (congrArg Prod.fst hrun)
    rw [List.forall_mem_append, and_iff_right hfirst, sgrFrom_inside le_rfl, forall_prop_of_true hm]
  · rw [if_neg hm, exec_bind] at hrun
    generalize exec (command d e.priv _ _ c) s = r at hrun
    rcases r with ⟨_ | _, u⟩
    · exact absurd (congrArg Prod.fst hrun).symm (Option.some_ne_none _)
    · obtain rfl := Option.some.inj (congrArg Prod.fst hrun)
      exact iff_of_true hfirst fun h => absurd h hm

/-- What `csi_push` uses, and then nothing or the list. -/
theorem push_inside {l : List ℤ} (hl : e.push.looked = l ++ e.looked) :
    (∀ z ∈ l, InParam z) ↔ 0 ≤ e.nparam := by
  rw [push_looked] at hl
  split at hl
  · next h =>
    obtain rfl : [e.nparam] = l := @List.append_cancel_right _ [e.nparam] _ _ hl
    simp [InParam, h]
  · next h =>
    obtain rfl : [] = l := @List.append_cancel_right _ [] _ _ hl
    have := not_lt.mp h
    simp only [kMaxParam] at this
    exact iff_of_true (fun z hz => absurd hz List.not_mem_nil) (by omega)

/-- What a byte of a sequence uses. -/
theorem csi_looked (hcsi : k.esc.state = .inCsi) (hput : escape d c k = some k') :
    ∃ l, k'.esc.looked = l ++ k.esc.looked ∧ ((∀ z ∈ l, InParam z) ↔ Fits k c) := by
  have hnone : k'.esc.looked = k.esc.looked → ¬(c = 0x3B ∨ (0x40 ≤ c ∧ c ≤ 0x7E)) →
      ∃ l, k'.esc.looked = l ++ k.esc.looked ∧ ((∀ z ∈ l, InParam z) ↔ Fits k c) := fun h hb =>
    ⟨[], h, iff_of_true (fun z hz => absurd hz List.not_mem_nil) fun _ h => absurd h hb⟩
  obtain ⟨l, hl⟩ : ∃ l, k.esc.push.looked = l ++ k.esc.looked := by
    rw [push_looked]
    split
    · exact ⟨[k.esc.nparam], rfl⟩
    · exact ⟨[], rfl⟩
  simp only [escape, hcsi] at hput
  split_ifs at hput with hdigit hsemi hmark hfinal hesc
  · obtain rfl := Option.some.inj hput
    refine hnone rfl fun h => ?_
    rcases h with rfl | h
    · exact absurd hdigit.2 (by decide)
    · exact absurd (UInt8.le_trans h.1 hdigit.2) (by decide)
  · obtain rfl := Option.some.inj hput
    have hm : c ≠ 0x6D := by rw [hsemi]; decide
    refine ⟨l, hl, (push_inside hl).trans ⟨fun h _ _ => ⟨h, fun hc => absurd hc hm⟩, fun h => ?_⟩⟩
    exact (h hcsi (.inl hsemi)).1
  · obtain rfl := Option.some.inj hput
    exact hnone rfl (by rw [hmark]; decide)
  · obtain ⟨⟨looked, t⟩, hrun, rfl⟩ := Option.map_eq_some_iff.mp hput
    refine ⟨looked.reverse ++ l, by simp only [hl, List.append_assoc], ?_⟩
    rw [List.forall_mem_append, push_inside hl, and_comm]
    simp only [List.mem_reverse, csiDispatch_inside hrun]
    exact ⟨fun h _ _ => h, fun h => h hcsi (.inr hfinal)⟩
  · obtain rfl := Option.some.inj hput
    exact hnone rfl (by rw [hesc]; decide)
  · obtain rfl := Option.some.inj hput
    exact hnone rfl fun h => h.elim hsemi hfinal

/-- **What a byte uses.** -/
theorem putchar_looked (hc : 0 < cols d) (hr : 0 < rows d) (hk : OnGrid d k.screen)
    (hput : putchar d c k = some k') : ∃ l, k'.esc.looked = l ++ k.esc.looked ∧
      ((∀ z ∈ l, InParam z) ↔ Fits k c) := by
  have hnone : k'.esc.looked = k.esc.looked → (k.esc.state = .inCsi →
    ¬(c = 0x3B ∨ (0x40 ≤ c ∧ c ≤ 0x7E))) →
      ∃ l, k'.esc.looked = l ++ k.esc.looked ∧ ((∀ z ∈ l, InParam z) ↔ Fits k c) := fun h hs =>
    ⟨[], h, iff_of_true (fun z hz => absurd hz List.not_mem_nil) fun hcsi hb => absurd hb (hs hcsi)⟩
  rw [putchar] at hput
  split at hput
  · next hstate =>
    cases hs : k.esc.state with
    | plain => exact absurd hs hstate
    | inCsi => exact csi_looked hs hput
    | afterEsc =>
      have hcsi : k.esc.state = .inCsi → ¬(c = 0x3B ∨ (0x40 ≤ c ∧ c ≤ 0x7E)) := by simp [hs]
      simp only [escape, hs] at hput
      split_ifs at hput <;> obtain rfl := Option.some.inj hput
      all_goals exact hnone rfl hcsi
    | inOsc =>
      have hcsi : k.esc.state = .inCsi → ¬(c = 0x3B ∨ (0x40 ≤ c ∧ c ≤ 0x7E)) := by simp [hs]
      simp only [escape, hs] at hput
      split_ifs at hput <;> obtain rfl := Option.some.inj hput
      all_goals exact hnone rfl hcsi
  · next hstate =>
    have hplain : k.esc.state = .plain := not_not.mp hstate
    have hcsi : k.esc.state = .inCsi → ¬(c = 0x3B ∨ (0x40 ≤ c ∧ c ≤ 0x7E)) := fun h => by
      rw [hplain] at h
      exact absurd h (by decide)
    split at hput
    · obtain rfl := Option.some.inj hput
      exact hnone rfl hcsi
    · obtain ⟨k₁, hrun, -, hesc⟩ := onScreen_of_sure (sure_plain hc hr c) hk
      obtain rfl := Option.some.inj (hrun.symm.trans hput)
      exact hnone (by rw [hesc]) hcsi

/-- **What a run uses.** -/
theorem puts_looked (hc : 0 < cols d) (hr : 0 < rows d) (l : List UInt8) (hk : OnGrid d k.screen)
    (hrun : puts d l k = some k') : ∃ m, k'.esc.looked = m ++ k.esc.looked ∧
      ((∀ z ∈ m, InParam z) ↔ AllFit d l k) := by
  induction l generalizing k with
  | nil =>
    obtain rfl := Option.some.inj hrun
    exact ⟨[], rfl, iff_of_true (fun z hz => absurd hz List.not_mem_nil) trivial⟩
  | cons c l ih =>
    obtain ⟨k₁, hput, hk₁⟩ := putchar_stays hc hr c hk
    rw [puts, List.foldlM_cons, hput] at hrun
    obtain ⟨m₁, hlooked₁, hfits⟩ := putchar_looked hc hr hk hput
    obtain ⟨m₂, hlooked₂, hall⟩ := ih hk₁ hrun
    refine ⟨m₂ ++ m₁, by rw [hlooked₂, hlooked₁, List.append_assoc], ?_⟩
    rw [List.forall_mem_append, hall, hfits, and_comm, AllFit]
    refine and_congr_right' ⟨fun h k₂ hk₂ => ?_, fun h => h k₁ hput⟩
    obtain rfl := Option.some.inj (hput.symm.trans hk₂)
    exact h

/-- **When all that is used of `g_param` is in it.** -/
theorem puts_inside_iff (d : Display) (hw : 8 ≤ d.width) (hh : 16 ≤ d.height)
    (around : ℤ → ℤ) (fb : Pixels)
    (l : List UInt8) : ∃ k, puts d l (powerOn around fb) = some k ∧
      ((∀ z ∈ k.esc.looked, InParam z) ↔ AllFit d l (powerOn around fb)) := by
  have hc := cols_pos hw
  have hr := rows_pos hh
  have hk : OnGrid d (powerOn around fb).screen :=
    ⟨⟨⟨le_rfl, hc⟩, le_rfl, hr⟩, fun h => absurd (show (0 : ℤ) ≤ -1 from h) (by decide)⟩
  obtain ⟨k, hrun, -⟩ := puts_stays hc hr l hk
  obtain ⟨m, hlooked, hall⟩ := puts_looked hc hr l hk hrun
  exact ⟨k, hrun,
    by rw [hlooked, show (powerOn around fb).esc.looked = [] from rfl, List.append_nil, hall]⟩

/-- Two parameters. -/
theorem puts_inside_small : ∃ k, puts ⟨8, 16, fun _ _ => 0⟩ [0x1B, 0x5B, 0x31, 0x3B, 0x37, 0x6D]
    (powerOn (fun _ => 0) fun _ _ => 0) = some k ∧ ((∀ z ∈ k.esc.looked, InParam z) ↔
      AllFit ⟨8, 16, fun _ _ => 0⟩ [0x1B, 0x5B, 0x31, 0x3B, 0x37, 0x6D]
      (powerOn (fun _ => 0) fun _ _ => 0)) :=
  puts_inside_iff _ le_rfl le_rfl _ _ _

/-- The eighth parameter begins a form, and there is a ninth one: `sgr` reads behind the array. -/
theorem reads_behind : ∃ l, (puts ⟨8, 16, fun _ _ => 0⟩
    ([0x1B, 0x5B] ++ List.replicate 7 0x3B ++ [0x33, 0x38, 0x3B, 0x6D])
    (powerOn (fun _ => 0) fun _ _ => 0)).map
      (fun k => k.esc.looked) = some l ∧ ¬∀ z ∈ l, InParam z :=
  ⟨[8, 7, 6, 5, 4, 3, 2, 1, 0, 1, 0, 7, 6, 5, 4, 3, 2, 1, 0], by decide +kernel, by decide⟩

end Console

end Aurisys
