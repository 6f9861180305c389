import Aurisys.Apps.Ps
import Aurisys.Kernel.ProcDir
import Mathlib.Data.List.TakeWhile

/-!
# The row that `ps` prints for a process

`ps` takes the line of `stat` apart again that `fill_stat` has put together: the number up to the
first parenthesis, the name up to the next closing one, and the rest by blanks. The buffers of the
fields have room for seven bytes, and what does not fit is taken for the next field.

## Main definitions

* `Row`, `row` — what `ps` makes of a line
* `rowOf` — what it should make of the line of a process

## Main results

* `row_stat_iff`
-/

namespace Aurisys

namespace Ps

open Kernel ProcFs Decimal

/-- What `ps` has of a line, with the times as numbers. -/
structure Row where
  pid : List UInt8
  cmd : List UInt8
  state : List UInt8
  ppid : List UInt8
  u : ℕ
  kk : ℕ
  sig : List UInt8

/-- The body of the loop of `main`, from the line to `printf`; a line without a name is passed
over. -/
def row (line : List UInt8) : Option Row :=
  let head := line.takeWhile (· ≠ 0x28)
  if head.length = line.length then none
  else
    let body := (line.drop head.length).tail
    let name := body.takeWhile (· ≠ 0x29)
    let (state, rest) := field (body.drop name.length).tail 8
    let (ppid, rest) := field rest 8
    let (utime, rest) := field rest 8
    let (ktime, rest) := field rest 8
    let (sig, _) := field rest 16
    some
      { pid := head.take 15, cmd := name.take 23, state, ppid
        u := number utime, kk := number ktime, sig }

/-- What there is to tell of a process; the blank behind its number is taken with it. -/
def rowOf (t : ProcTask) : Row where
  pid := decimal t.task.pid ++ [0x20]
  cmd := t.task.name
  state := stateName t.task.state
  ppid := decimal t.task.ppid
  u := t.utime.toNat
  kk := t.ktime.toNat
  sig := signalName t.task.signal

variable {w rest : List UInt8} {c : UInt8} {n sz : ℕ} {ps : ProcFs.Table} {t : ProcTask} {pid : ℕ}

/-! ## Fields -/

/-- No byte of a word is a blank. -/
def Word (w : List UInt8) : Prop := ∀ c ∈ w, isBlank c = false

theorem takeWhile_word (hw : Word w) (hc : isBlank c = true) :
    (w ++ c :: rest).takeWhile (fun c => !isBlank c) = w := by
  rw [List.takeWhile_append_of_pos fun c h => by rw [hw c h]; rfl,
    List.takeWhile_cons_of_neg (by rw [hc]; exact Bool.false_ne_true), List.append_nil]

theorem dropWhile_word (hw : Word w) (hne : w ≠ []) :
    (w ++ rest).dropWhile isBlank = w ++ rest := by
  obtain ⟨a, w, rfl⟩ := List.exists_cons_of_ne_nil hne
  rw [List.cons_append, List.dropWhile_cons_of_neg]
  rw [hw a List.mem_cons_self]
  exact Bool.false_ne_true

/-- **A word that fits** is a field. -/
theorem field_word (hw : Word w) (hne : w ≠ []) (hc : isBlank c = true) (hsz : w.length ≤ sz - 1) :
    field (w ++ c :: rest) sz = (w, rest) := by
  rw [field, dropWhile_word hw hne, takeWhile_word hw hc, List.take_of_length_le hsz,
    List.drop_left, List.tail_cons]

/-- A blank in front is nothing. -/
theorem field_blank (hc : isBlank c = true) : field (c :: rest) sz = field rest sz := by
  rw [field, List.dropWhile_cons_of_pos hc, field]

theorem word_decimal (n : ℕ) : Word (decimal n) := fun c hc => by
  have := isDigit_iff.mp (isDigit_of_mem_decimal hc)
  simp only [isBlank, UInt8.le_iff_toNat_le, decide_eq_false_iff_not]
  simp
  omega

/-- A number that fits is read. -/
theorem number_decimal (n : ℕ) : number (decimal n) = n := by
  have hall : (decimal n).takeWhile isDigit = decimal n :=
    List.takeWhile_eq_self_iff.mpr fun c hc => isDigit_of_mem_decimal hc
  rw [number, hall]
  exact value_decimal n

theorem value_lt {w : List UInt8} (hw : ∀ c ∈ w, isDigit c = true) : value w < 10 ^ w.length := by
  induction w using List.reverseRecOn with
  | nil => decide
  | append_singleton w c ih =>
    have hw' := ih fun c hc => hw c (List.mem_append_left _ hc)
    have hc := isDigit_iff.mp (hw c (List.mem_append_right _ (List.mem_singleton_self c)))
    rw [List.length_append, List.length_singleton, Nat.pow_succ]
    have hval : value (w ++ [c]) = value w * 10 + (c.toNat - 0x30) := by
      rw [value, valueFrom, List.foldl_append]
      rfl
    rw [hval]
    omega

/-- What is read of a field of seven bytes has seven digits at most. -/
theorem number_lt {w : List UInt8} (hlen : w.length ≤ 7) : number w < 10 ^ 7 := by
  have hlt : number w < 10 ^ (w.takeWhile isDigit).length :=
    value_lt fun c hc => List.mem_takeWhile_imp hc
  refine hlt.trans_le (Nat.pow_le_pow_right (by decide) ?_)
  exact ((List.takeWhile_prefix isDigit).length_le).trans hlen

theorem length_field_le (p : List UInt8) : (field p 8).1.length ≤ 7 := by
  rw [field, List.length_take]
  exact Nat.min_le_left _ _

/-! ## The line -/

/-- The line of a process. -/
def statLine (t : ProcTask) : List UInt8 :=
  decimal t.task.pid ++ 0x20 :: 0x28 :: (t.task.name ++ 0x29 :: 0x20 :: (stateName t.task.state ++
    0x20 :: (decimal t.task.ppid ++ 0x20 :: (decimal t.utime.toNat ++ 0x20 ::
      (decimal t.ktime.toNat ++ 0x20 :: (signalName t.task.signal ++ [0x0A]))))))

theorem digits_reverse (v : UInt32) : (Sink.digits 10 v.toNat).reverse = decimal v.toNat :=
  numToStr_eq (v.toNat_lt.trans (by decide))

/-- **`fill_stat`.** -/
theorem textOf_stat (h : byPid ps pid = some t) (hpid : t.task.pid < 2 ^ 32)
    (hppid : t.task.ppid < 2 ^ 32) : textOf ps ⟨.stat, pid, 0⟩ = statLine t := by
  have hdigits : ∀ v, v < 2 ^ 32 →
      (Sink.digits 10 (UInt32.ofNat v).toNat).reverse = decimal v := fun v hv => by
    rw [digits_reverse, UInt32.toNat_ofNat_of_lt' hv]
  have hfill : ∀ len, fill ps ⟨.stat, pid, 0⟩ ⟨[], len⟩ = Sink.cut len (statLine t) := by
    intro len
    have hnil : (⟨[], len⟩ : Sink) = Sink.cut len [] := by rw [Sink.cut, List.take_nil]
    rw [fill, fillStat, h, hnil]
    simp only [Sink.field_cut, Sink.put_cut, hdigits _ hpid, hdigits _ hppid,
      digits_reverse, statLine]
    simp [text]
  -- With room for both texts neither is cut.
  have hcut :=
    (fill_eq ps ⟨.stat, pid,
    0⟩ ((textOf ps ⟨.stat, pid, 0⟩).length + (statLine t).length)).symm.trans
    (hfill _)
  have hout := congrArg Sink.out hcut
  rwa [Sink.cut, Sink.cut, List.take_of_length_le (Nat.le_add_right _ _),
    List.take_of_length_le (Nat.le_add_left _ _)] at hout

theorem length_statLine_le (hpid : t.task.pid < 2 ^ 32) (hppid : t.task.ppid < 2 ^ 32) :
    (statLine t).length ≤ 255 := by
  have hword : ∀ v, v < 2 ^ 32 → (decimal v).length ≤ 10 := fun v hv =>
    length_decimal_le (by decide) (hv.trans (by decide))
  have h1 := hword _ hpid
  have h2 := hword _ hppid
  have h3 := hword _ t.utime.toNat_lt
  have h4 := hword _ t.ktime.toNat_lt
  have h5 := t.name_lt
  have h6 := length_stateName_le t.task.state
  have h7 := length_signalName_le t.task.signal
  rw [statLine]
  simp only [List.length_append, List.length_cons, List.length_nil]
  omega

theorem word_of_all (h : (w.all fun c => !isBlank c) = true) : Word w := by
  simpa [Word] using h

theorem word_stateName (st : TaskState) : Word (stateName st) ∧ stateName st ≠ [] := by
  refine ⟨word_of_all ?_, ?_⟩ <;> cases st <;> decide

theorem word_signalName (sig : UInt32) : Word (signalName sig) ∧ signalName sig ≠ [] := by
  refine ⟨word_of_all ?_, ?_⟩ <;> rw [signalName] <;> split_ifs <;> decide

theorem takeWhile_ne {a : UInt8} (h : a ∉ w) : (w ++ a :: rest).takeWhile (· ≠ a) = w := by
  have hall : ∀ b ∈ w, decide (b ≠ a) = true := fun b hb =>
    decide_eq_true fun he => h (he ▸ hb)
  rw [List.takeWhile_append_of_pos hall, List.takeWhile_cons_of_neg (by simp), List.append_nil]

/-- The fields that follow those of fixed length. -/
def timesOf (t : ProcTask) : List UInt8 :=
  decimal t.utime.toNat ++ 0x20 :: (decimal t.ktime.toNat ++ 0x20 ::
    (signalName t.task.signal ++ [0x0A]))

/-- The fields up to the times. -/
theorem row_statLine (hname : 0x29 ∉ t.task.name) (hpid : t.task.pid < 10 ^ 7)
    (hppid : t.task.ppid < 10 ^ 7) :
    row (statLine t) = some { rowOf t with
      u := number (field (timesOf t) 8).1
      kk := number (field (field (timesOf t) 8).2 8).1
      sig := (field (field (field (timesOf t) 8).2 8).2 16).1 } := by
  have hlen : ∀ v, v < 10 ^ 7 → (decimal v).length ≤ 7 := fun v => length_decimal_le (by decide)
  have hblank : isBlank 0x20 = true := by decide
  have hpar : (0x28 : UInt8) ∉ decimal t.task.pid ++ [0x20] := by
    intro h
    rcases List.mem_append.mp h with h | h
    · exact absurd (isDigit_of_mem_decimal h) (by decide)
    · exact absurd (List.mem_singleton.mp h) (by decide)
  have hline : statLine t = (decimal t.task.pid ++ [0x20]) ++ 0x28 :: (t.task.name ++ 0x29 ::
      0x20 :: (stateName t.task.state ++ 0x20 :: (decimal t.task.ppid ++ 0x20 :: timesOf t))) := by
    rw [statLine, timesOf, List.append_assoc]
    rfl
  have hstate := word_stateName t.task.state
  have hsl := length_stateName_le t.task.state
  have h5 := t.name_lt
  have hpl := hlen _ hpid
  rw [row, hline]
  dsimp only
  rw [takeWhile_ne hpar, if_neg (by simp), List.drop_left, List.tail_cons, takeWhile_ne hname,
    List.drop_left, List.tail_cons, field_blank hblank, field_word hstate.1 hstate.2 hblank hsl]
  dsimp only
  rw [field_word (word_decimal _) (decimal_ne_nil _) hblank (hlen _ hppid)]
  dsimp only
  rw [List.take_of_length_le (show (decimal t.task.pid ++ [0x20]).length ≤ 15 by
    rw [List.length_append, List.length_singleton]; omega), List.take_of_length_le (by omega)]
  rfl

/-- **What `ps` has of a process is what there is to tell of it** if and only if the times have
seven digits at most. -/
theorem row_stat_iff (h : byPid ps pid = some t) (hname : 0x29 ∉ t.task.name)
    (hpid : t.task.pid < 10 ^ 7) (hppid : t.task.ppid < 10 ^ 7) :
    row (readFile ps ⟨.stat, pid, 0⟩ 0 255) = some (rowOf t) ↔
      t.utime.toNat < 10 ^ 7 ∧ t.ktime.toNat < 10 ^ 7 := by
  have hpid' : t.task.pid < 2 ^ 32 := hpid.trans (by decide)
  have hppid' : t.task.ppid < 2 ^ 32 := hppid.trans (by decide)
  have hblank : isBlank 0x20 = true := by decide
  rw [readFile_eq, textOf_stat h hpid' hppid',
    List.take_of_length_le (length_statLine_le hpid' hppid'),
    List.drop_zero, row_statLine hname hpid hppid, Option.some.injEq, Row.mk.injEq]
  simp only [rowOf, true_and]
  constructor
  · rintro ⟨hu, hk, -⟩
    rw [← hu, ← hk]
    exact ⟨number_lt (length_field_le _), number_lt (length_field_le _)⟩
  · rintro ⟨hu, hk⟩
    have hsig := word_signalName t.task.signal
    have hsl := length_signalName_le t.task.signal
    rw [timesOf, field_word (word_decimal _) (decimal_ne_nil _) hblank
      (length_decimal_le (by decide) hu)]
    dsimp only
    rw [field_word (word_decimal _) (decimal_ne_nil _) hblank (length_decimal_le (by decide) hk)]
    dsimp only
    rw [field_word hsig.1 hsig.2 (by decide) (by omega)]
    exact ⟨number_decimal _, number_decimal _, rfl⟩

/-- The first process has run for twelve ticks, and three in the kernel. -/
theorem row_stat_iff_booted : row (readFile booted ⟨.stat, 1, 0⟩ 0 255) =
    some (rowOf (booted 0)) := by
  have hinit : byPid booted 1 = some (booted 0) := by rfl
  obtain ⟨hpid, hppid⟩ := shows_booted.numbers_le table_startup hinit
  have hmax : kMaxTask < 10 ^ 7 := by decide
  exact (row_stat_iff hinit (by decide) (hpid.trans_lt hmax) (hppid.trans_lt hmax)).mpr (by decide)

end Ps

end Aurisys
