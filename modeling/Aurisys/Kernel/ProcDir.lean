import Aurisys.Kernel.ProcFs
import Aurisys.Kernel.Table
import Aurisys.Lib.Decimal

/-!
# The directories of `/proc`

A directory of `/proc` is a function from indices to nodes, and another one from names to nodes. The
two go through the process table on their own: the one counts what is in use and writes numbers, the
other reads a number and looks whether it is in use. `parse` takes zeros in front, so that
`/proc/007` is `/proc/7` under another name.

## Scope

A node is made anew each time. Where it is put, in `g_pids`, in `g_fddirs` or in one of the eight
places of `g_ring`, is left out; the caller copies it.

## Main definitions

* `ProcNode`, `dress`
* `nthOf`, `numToStr`, `parse`
* `readdir`, `findChild` — of the three kinds of directories

## Main results

* `listing_agrees`
-/

namespace Aurisys

namespace ProcFs

open Decimal

/-! ## Nodes -/

/-- `kind`. -/
inductive NodeKind
  | root
  | pidDir
  | fdDir
  | file (k : Kind)

/-- A node of `/proc`; `parent` says which directory that is. -/
structure ProcNode where
  name : List UInt8
  k : NodeKind
  pid : ℕ
  fd : ℕ
  parent : Option (NodeKind × ℕ)

/-- `n->type`. -/
def ProcNode.isDir (n : ProcNode) : Bool :=
  match n.k with
  | .root | .pidDir | .fdDir => true
  | .file _ => false

/-- `dress`; `name_buf` has 64 bytes. -/
def dress (parent : ProcNode) (name : List UInt8) (k : NodeKind) (pid fd : ℕ) : ProcNode where
  name := name.take 63
  k := k
  pid := pid
  fd := fd
  parent := some (parent.k, parent.pid)

/-- `g_root`. -/
def procRoot : ProcNode := ⟨text "proc", .root, 0, 0, none⟩

/-- `kEntries`. -/
def kEntries : List (List UInt8 × NodeKind) :=
  [(text "cmdline", .file .cmdline), (text "cwd", .file .cwd), (text "fd", .fdDir),
    (text "maps", .file .maps), (text "stat", .file .stat), (text "status", .file .status)]

/-! ## Numbers -/

/-- `num_to_str`. A word has ten digits at most, so neither array is too short. -/
def numToStr (v : ℕ) : List UInt8 := (Sink.digits 10 v).reverse

/-- The loop of `parse`. -/
def parseLoop (v : ℕ) : List UInt8 → Option ℕ
  | [] => some v
  | c :: s =>
    if isDigit c then
      let v := v * 10 + (c.toNat - 0x30)
      if 100000 < v then none else parseLoop v s
    else none

/-- `parse`; `none` is `-1`. -/
def parse (s : List UInt8) : Option ℕ :=
  match s with
  | [] => none
  | c :: _ => if isDigit c then parseLoop 0 s else none

/-! ## The directories -/

/-- The loop of `nth` and of `readdir_fd`: what is in use is counted up to the index. -/
def nthOf {α : Type} (used : α → Bool) (index : ℕ) : ℕ → List α → Option α
  | _, [] => none
  | seen, a :: l =>
    if !used a then nthOf used index seen l
    else if seen = index then some a
    else nthOf used index (seen + 1) l

/-- `nth`. -/
def nth (ps : Table) (index : ℕ) : Option ProcTask :=
  (nthOf (fun i => (ps i).task.state ≠ .free) index 0 (List.finRange kMaxTask)).map ps

/-- `readdir_proc`. -/
def readdirProc (ps : Table) (index : ℕ) : Option ProcNode :=
  (nth ps index).map fun t => dress procRoot (numToStr t.task.pid) .pidDir t.task.pid 0

/-- `find_proc`. -/
def findProc (ps : Table) (name : List UInt8) : Option ProcNode :=
  (parse name).bind fun pid =>
    if pid < 1 ∨ kMaxTask < pid ∨ (byPid ps pid).isNone then none
    else some (dress procRoot name .pidDir pid 0)

/-- `readdir_pid`. -/
def readdirPid (n : ProcNode) (index : ℕ) : Option ProcNode :=
  kEntries[index]?.map fun e => dress n e.1 e.2 n.pid 0

/-- `find_pid`. -/
def findPid (n : ProcNode) (name : List UInt8) : Option ProcNode :=
  (kEntries.find? fun e => name = e.1).map fun e => dress n name e.2 n.pid 0

/-- `readdir_fd`. -/
def readdirFd (ps : Table) (n : ProcNode) (index : ℕ) : Option ProcNode :=
  (byPid ps n.pid).bind fun t =>
    (nthOf (fun i => (t.task.fd i).isSome) index 0 (List.finRange kMaxFd)).map fun i =>
      dress n (numToStr i.val) (.file .fdLink) n.pid i.val

/-- `find_fd`. -/
def findFd (ps : Table) (n : ProcNode) (name : List UInt8) : Option ProcNode :=
  (parse name).bind fun fd =>
    (byPid ps n.pid).bind fun t =>
      if h : fd < kMaxFd then
        if (t.task.fd ⟨fd, h⟩).isNone then none else some (dress n name (.file .fdLink) n.pid fd)
      else none

/-- `n->readdir`. -/
def readdir (ps : Table) (n : ProcNode) (index : ℕ) : Option ProcNode :=
  match n.k with
  | .root => readdirProc ps index
  | .pidDir => readdirPid n index
  | .fdDir => readdirFd ps n index
  | .file _ => none

/-- `n->find_child`. -/
def findChild (ps : Table) (n : ProcNode) (name : List UInt8) : Option ProcNode :=
  match n.k with
  | .root => findProc ps name
  | .pidDir => findPid n name
  | .fdDir => findFd ps n name
  | .file _ => none

variable {ps : Table} {n e : ProcNode} {name s : List UInt8} {v index : ℕ}

/-! ## Numbers -/

theorem digits_eq {fuel v : ℕ} (h : v < 10 ^ fuel) (hf : 0 < fuel) :
    Sink.digits fuel v = (numeral 10 v).reverse.map digit := by
  induction fuel generalizing v with
  | zero => omega
  | succ fuel ih =>
    rw [Sink.digits]
    by_cases h0 : v / 10 = 0
    · rw [if_pos h0, numeral_of_lt (by omega), Nat.mod_eq_of_lt (by omega)]
      rfl
    · have hlt : v / 10 < 10 ^ fuel := by
        rw [Nat.div_lt_iff_lt_mul (by decide), ← Nat.pow_succ]
        exact h
      have hfuel : 0 < fuel := by
        by_contra hz
        rw [Nat.eq_zero_of_not_pos hz, Nat.pow_zero] at hlt
        omega
      rw [if_neg h0, ih hlt hfuel, numeral_of_ne h0, numeral_of_ne (by omega), List.reverse_reverse,
        List.reverse_reverse, Nat.digits_def' (by decide) (show 0 < v by omega),
        List.map_cons, digit]

/-- **`num_to_str`** writes the number. -/
theorem numToStr_eq (h : v < 10 ^ 10) : numToStr v = decimal v := by
  rw [numToStr, digits_eq h (by decide), decimal, ← List.map_reverse, List.reverse_reverse]

theorem parseLoop_eq_some {u : ℕ} (hu : u ≤ 100000) : parseLoop u s = some v ↔
    (∀ c ∈ s, isDigit c = true) ∧ v = valueFrom u s ∧ v ≤ 100000 := by
  induction s generalizing u with
  | nil =>
    rw [parseLoop, valueFrom_nil, Option.some.injEq]
    constructor
    · rintro rfl
      exact ⟨by simp, rfl, hu⟩
    · rintro ⟨-, h, -⟩
      exact h.symm
  | cons c s ih =>
    rw [parseLoop, valueFrom_cons]
    by_cases hc : isDigit c = true
    · rw [if_pos hc]
      dsimp only
      split
      · next hbig =>
        have := le_valueFrom (u * 10 + (c.toNat - 0x30)) s
        constructor
        · exact fun h => absurd h nofun
        · rintro ⟨-, h, hv⟩
          omega
      · next hsmall =>
        rw [ih (by omega)]
        simp [hc]
    · rw [if_neg hc]
      simp [hc]

/-- **`parse`** takes a number of at most 100000 behind zeros. -/
theorem parse_eq_some : parse s = some v ↔
    v ≤ 100000 ∧ ∃ z, s = List.replicate z 0x30 ++ decimal v := by
  have hparse : parse s = some v ↔
      s ≠ [] ∧ (∀ c ∈ s, isDigit c = true) ∧ v = value s ∧ v ≤ 100000 := by
    cases s with
    | nil => simp [parse]
    | cons c t =>
      rw [parse]
      split
      · rw [parseLoop_eq_some (by decide), value]
        simp
      · next hc => simp [hc]
  rw [hparse]
  constructor
  · rintro ⟨hs, hd, rfl, hv⟩
    exact ⟨hv, eq_zeros_append_decimal hs hd⟩
  · rintro ⟨hv, z, rfl⟩
    refine ⟨by simp [decimal_ne_nil], fun c hc => ?_, ?_, hv⟩
    · rcases List.mem_append.mp hc with hc | hc
      · rw [List.eq_of_mem_replicate hc]
        rfl
      · exact isDigit_of_mem_decimal hc
    · rw [value_zeros_append, value_decimal]

/-! ## Listings -/

theorem nthOf_eq {α : Type} (used : α → Bool) {seen : ℕ} (hs : seen ≤ index) (l : List α) :
    nthOf used index seen l = (l.filter used)[index - seen]? := by
  induction l generalizing seen with
  | nil => rfl
  | cons a l ih =>
    rw [nthOf]
    cases hu : used a with
    | false =>
      rw [Bool.not_false, if_pos rfl, ih hs, List.filter_cons_of_neg (by simp [hu])]
    | true =>
      rw [Bool.not_true, if_neg Bool.false_ne_true, List.filter_cons_of_pos hu]
      split
      · next he => rw [he, Nat.sub_self, List.getElem?_cons_zero]
      · next hne =>
        rw [ih (by omega), show index - seen = index - (seen + 1) + 1 by omega,
          List.getElem?_cons_succ]

/-- A task has the number of its slot. -/
def Numbered (ps : Table) : Prop := ∀ i, (ps i).task.state ≠ .free → (ps i).task.pid = i + 1

theorem byPid_eq_some (hps : Numbered ps) {pid : ℕ} {t : ProcTask} : byPid ps pid = some t ↔
    ∃ i, (ps i).task.state ≠ .free ∧ pid = i + 1 ∧ ps i = t := by
  rw [byPid, Option.map_eq_some_iff]
  constructor
  · rintro ⟨i, hi, rfl⟩
    have := List.find?_some hi
    simp only [decide_eq_true_eq] at this
    exact ⟨i, this.1, this.2.symm.trans (hps i this.1), rfl⟩
  · rintro ⟨i, hi, rfl, rfl⟩
    refine ⟨i, ?_, rfl⟩
    cases hf : (List.finRange kMaxTask).find? fun j =>
        (ps j).task.state ≠ .free ∧ (ps j).task.pid = i + 1 with
    | none =>
      have := List.find?_eq_none.mp hf i (List.mem_finRange i)
      simp [hi, hps i hi] at this
    | some j =>
      have := List.find?_some hf
      simp only [decide_eq_true_eq] at this
      have hj := hps j this.1
      rw [Option.some.injEq, Fin.ext_iff]
      omega

/-- The tasks are those of a kernel. -/
def Shows {H : Type} (ps : Table) (k : Kernel H) : Prop := ∀ i, (ps i).task = k.tasks i

section

variable {H : Type} {k : Kernel H}

/-- In a process table that is in order a task has the number of its slot. -/
theorem Shows.numbered (h : Shows ps k) (hk : k.Table) : Numbered ps := by
  intro i hi
  rw [h i] at hi ⊢
  exact hk.pid i hi

/-- Neither its own number nor that of its parent is larger than the table. -/
theorem Shows.numbers_le (h : Shows ps k) (hk : k.Table) {pid : ℕ} {t : ProcTask}
    (ht : byPid ps pid = some t) :
    t.task.pid ≤ kMaxTask ∧ t.task.ppid ≤ kMaxTask := by
  obtain ⟨i, hi, -, rfl⟩ := (byPid_eq_some (h.numbered hk)).mp ht
  rw [h i] at hi ⊢
  exact ⟨hk.pid i hi ▸ i.isLt, hk.ppid i hi⟩

end

/-- The children of a directory, in order. -/
def children (ps : Table) (n : ProcNode) : List ProcNode :=
  match n.k with
  | .root => ((List.finRange kMaxTask).filter fun i => (ps i).task.state ≠ .free).map fun i =>
      dress procRoot (decimal (i.val + 1)) .pidDir (i.val + 1) 0
  | .pidDir => kEntries.map fun e => dress n e.1 e.2 n.pid 0
  | .fdDir => (byPid ps n.pid).elim [] fun t =>
      ((List.finRange kMaxFd).filter fun i => (t.task.fd i).isSome).map fun i =>
        dress n (decimal i.val) (.file .fdLink) n.pid i.val
  | .file _ => []

/-- The names by which what is listed under a name is found: of a number, also behind zeros. -/
def Alias (n : ProcNode) (name listed : List UInt8) : Prop :=
  match n.k with
  | .pidDir => name = listed
  | _ => ∃ z, name = List.replicate z 0x30 ++ listed

/-- A name that `name_buf` has room for. -/
theorem take_decimal (h : v < 10 ^ 10) : (decimal v).take 63 = decimal v :=
  List.take_of_length_le ((length_decimal_le (by decide) h).trans (by decide))

theorem task_lt (i : Fin kMaxTask) : (i : ℕ) + 1 < 10 ^ 10 := by
  have := i.isLt
  simp only [kMaxTask] at this
  omega

theorem fd_lt (i : Fin kMaxFd) : (i : ℕ) < 10 ^ 10 := by
  have := i.isLt
  simp only [kMaxFd] at this
  omega

/-- **`readdir`** goes through the children. -/
theorem readdir_eq (hps : Numbered ps) (n : ProcNode) (index : ℕ) :
    readdir ps n index = (children ps n)[index]? := by
  rw [readdir, children]
  cases n.k with
  | root =>
    dsimp only
    rw [readdirProc, nth, nthOf_eq _ (Nat.zero_le _), Nat.sub_zero, List.getElem?_map,
      Option.map_map]
    refine Option.map_congr fun i hi => ?_
    have hused : (ps i).task.state ≠ .free := by
      simpa using (List.mem_filter.mp (List.mem_of_getElem? hi)).2
    simp only [Function.comp_apply, hps i hused, numToStr_eq (task_lt i)]
  | pidDir => rw [readdirPid, List.getElem?_map]
  | fdDir =>
    dsimp only
    rw [readdirFd]
    cases byPid ps n.pid with
    | none => rfl
    | some t =>
      rw [Option.bind_some, Option.elim_some, nthOf_eq _ (Nat.zero_le _), Nat.sub_zero,
        List.getElem?_map]
      refine Option.map_congr fun i _ => ?_
      rw [numToStr_eq (fd_lt i)]
  | file k => rfl

theorem findProc_eq_some (hps : Numbered ps) (name : List UInt8) : findProc ps name = some e ↔
    ∃ i : Fin kMaxTask, (ps i).task.state ≠ .free ∧
      (∃ z, name = List.replicate z 0x30 ++ decimal (i.val + 1)) ∧
      e = dress procRoot name .pidDir (i.val + 1) 0 := by
  rw [findProc, Option.bind_eq_some_iff]
  constructor
  · rintro ⟨pid, hp, he⟩
    split at he
    · cases he
    · next hn =>
      rw [not_or, not_or, Option.isNone_iff_eq_none] at hn
      obtain ⟨t, ht⟩ := Option.ne_none_iff_exists'.mp hn.2.2
      obtain ⟨i, hi, rfl, -⟩ := (byPid_eq_some hps).mp ht
      exact ⟨i, hi, (parse_eq_some.mp hp).2, (Option.some.inj he).symm⟩
  · rintro ⟨i, hi, hz, rfl⟩
    have hlt := i.isLt
    simp only [kMaxTask] at hlt
    refine ⟨i.val + 1, parse_eq_some.mpr ⟨by omega, hz⟩, if_neg ?_⟩
    rw [(byPid_eq_some hps).mpr ⟨i, hi, rfl, rfl⟩]
    simp only [kMaxTask, Option.isNone_some, Bool.false_eq_true, or_false]
    omega

theorem findFd_eq_some (n : ProcNode) (name : List UInt8) : findFd ps n name = some e ↔
    ∃ t, byPid ps n.pid = some t ∧ ∃ i : Fin kMaxFd, (t.task.fd i).isSome = true ∧
      (∃ z, name = List.replicate z 0x30 ++ decimal i.val) ∧
      e = dress n name (.file .fdLink) n.pid i.val := by
  rw [findFd, Option.bind_eq_some_iff]
  constructor
  · rintro ⟨fd, hp, he⟩
    obtain ⟨t, ht, he⟩ := Option.bind_eq_some_iff.mp he
    split at he
    · next hfd =>
      split at he
      · cases he
      · next hn =>
        refine ⟨t, ht, ⟨fd, hfd⟩, ?_, (parse_eq_some.mp hp).2, (Option.some.inj he).symm⟩
        simpa [Option.isSome_iff_ne_none] using hn
    · cases he
  · rintro ⟨t, ht, i, hi, hz, rfl⟩
    have hlt := i.isLt
    simp only [kMaxFd] at hlt
    refine ⟨i.val, parse_eq_some.mpr ⟨by omega, hz⟩, Option.bind_eq_some_iff.mpr ⟨t, ht, ?_⟩⟩
    rw [dif_pos i.isLt, if_neg (by simpa [Option.isSome_iff_ne_none] using hi)]

theorem findPid_eq_some (n : ProcNode) (name : List UInt8) : findPid n name = some e ↔
    ∃ f ∈ kEntries, name = f.1 ∧ e = dress n name f.2 n.pid 0 := by
  rw [findPid, Option.map_eq_some_iff]
  constructor
  · rintro ⟨f, hf, rfl⟩
    exact ⟨f, List.mem_of_find?_eq_some hf, by simpa using List.find?_some hf, rfl⟩
  · rintro ⟨f, hf, rfl, rfl⟩
    refine ⟨f, ?_, rfl⟩
    simp only [kEntries, List.mem_cons, List.not_mem_nil, or_false] at hf
    rcases hf with rfl | rfl | rfl | rfl | rfl | rfl <;> rfl

/-- **`find_child`** finds the children under their names. -/
theorem findChild_eq_some (hps : Numbered ps) (n : ProcNode) (name : List UInt8) :
    findChild ps n name = some e ↔
      ∃ e' ∈ children ps n, Alias n name e'.name ∧ e = { e' with name := name.take 63 } := by
  simp only [findChild, children, Alias.eq_def]
  cases n.k with
  | root =>
    dsimp only
    rw [findProc_eq_some hps]
    simp only [List.mem_map, List.mem_filter, List.mem_finRange, true_and, decide_eq_true_eq,
      exists_exists_and_eq_and, dress, take_decimal (task_lt _)]
  | pidDir =>
    dsimp only
    rw [findPid_eq_some]
    have hshort : ∀ f ∈ kEntries, f.1.take 63 = f.1 := by decide
    simp only [List.mem_map]
    constructor
    · rintro ⟨f, hf, rfl, rfl⟩
      exact ⟨_, ⟨f, hf, rfl⟩, (hshort f hf).symm, rfl⟩
    · rintro ⟨e', ⟨f, hf, rfl⟩, hname, rfl⟩
      exact ⟨f, hf, hname.trans (hshort f hf), rfl⟩
  | fdDir =>
    dsimp only
    rw [findFd_eq_some]
    cases byPid ps n.pid with
    | none => simp
    | some t =>
      simp only [Option.some.injEq, exists_eq_left', Option.elim_some,
        List.mem_map, List.mem_filter,
        List.mem_finRange, true_and, exists_exists_and_eq_and, dress, take_decimal (fd_lt _)]
  | file k => simp

/-! ## The two together -/

/-- No two children have one name. -/
theorem nodup_children (ps : Table) (n : ProcNode) : ((children ps n).map (·.name)).Nodup := by
  rw [children]
  cases n.k with
  | root =>
    dsimp only
    rw [List.map_map]
    refine ((List.nodup_finRange kMaxTask).filter _).map fun i j hij => ?_
    simp only [Function.comp_apply, dress, take_decimal (task_lt _)] at hij
    have := decimal_injective hij
    exact Fin.ext (by omega)
  | pidDir =>
    dsimp only
    rw [List.map_map]
    have hname : ((fun e : ProcNode => e.name) ∘ fun e : List UInt8 × NodeKind =>
      dress n e.1 e.2 n.pid 0)
        = (·.1.take 63) := rfl
    rw [hname]
    decide
  | fdDir =>
    dsimp only
    cases byPid ps n.pid with
    | none => exact List.nodup_nil
    | some t =>
      rw [Option.elim_some, List.map_map]
      refine ((List.nodup_finRange kMaxFd).filter _).map fun i j hij => ?_
      simp only [Function.comp_apply, dress, take_decimal (fd_lt _)] at hij
      exact Fin.ext (decimal_injective hij)
  | file k => exact List.nodup_nil

/-- A name has been cut already. -/
theorem take_name {n e : ProcNode} (he : e ∈ children ps n) : e.name.take 63 = e.name := by
  have hdress : ∀ m nm k pid fd, (dress m nm k pid fd).name.take 63 = (dress m nm k pid fd).name :=
    fun m nm k pid fd => by rw [dress, List.take_take, Nat.min_self]
  rw [children] at he
  cases hk : n.k with
  | root =>
    rw [hk] at he
    obtain ⟨i, -, rfl⟩ := List.mem_map.mp he
    exact hdress ..
  | pidDir =>
    rw [hk] at he
    obtain ⟨f, -, rfl⟩ := List.mem_map.mp he
    exact hdress ..
  | fdDir =>
    rw [hk] at he
    dsimp only at he
    cases hp : byPid ps n.pid with
    | none =>
      rw [hp] at he
      exact absurd he List.not_mem_nil
    | some t =>
      rw [hp] at he
      obtain ⟨i, -, rfl⟩ := List.mem_map.mp he
      exact hdress ..
  | file k =>
    rw [hk] at he
    exact absurd he List.not_mem_nil

/-- What is listed is found under its name. -/
theorem find_listed (hps : Numbered ps) {n e : ProcNode} (he : e ∈ children ps n) :
    findChild ps n e.name = some e := by
  refine (findChild_eq_some hps n e.name).mpr ⟨e, he, ?_, by rw [take_name he]⟩
  rw [Alias.eq_def]
  split
  · rfl
  · exact ⟨0, rfl⟩

/-- **What a directory of `/proc` lists is what is found in it.** Its children have names that
differ, the indices go through them without a gap, each is found under its name, and by no other
name is anything found than by the number of a child behind zeros. -/
theorem listing_agrees (hps : Numbered ps) (n : ProcNode) : ∃ l : List ProcNode,
    (∀ index, readdir ps n index = l[index]?) ∧ (l.map (·.name)).Nodup ∧
      (∀ e ∈ l, findChild ps n e.name = some e) ∧
      ∀ name e, findChild ps n name = some e ↔
        ∃ e' ∈ l, Alias n name e'.name ∧ e = { e' with name := name.take 63 } :=
  ⟨children ps n, readdir_eq hps n, nodup_children ps n, fun _ => find_listed hps,
    fun name _ => findChild_eq_some hps n name⟩

/-- The table when the machine starts. -/
def booted : Table := fun i =>
  if i = 0 then
    { task := Machine.startup.k.tasks 0, utime := 12, ktime := 3
      name_lt := by decide, cwd_lt := by decide, fdName_lt := nofun }
  else .zero

theorem shows_booted : Shows booted Machine.startup.k := by
  intro i
  rw [booted]
  split
  · next hi => rw [hi]
  · next hi =>
    change Task.zero = Function.update (fun _ => Task.zero) 0 _ i
    rw [Function.update_of_ne hi]

theorem table_startup : Machine.startup.k.Table := (Machine.table_boot _ _ _).kernel

/-- A second name for the directory of the first process. -/
theorem listing_agrees_booted : findChild booted procRoot (text "001") =
    some { name := text "001", k := .pidDir, pid := 1, fd := 0, parent := some (.root, 0) } := by
  obtain ⟨l, hl, -, -, hfind⟩ := listing_agrees (shows_booted.numbered table_startup) procRoot
  have hmem : dress procRoot (text "1") .pidDir 1 0 ∈ l :=
    List.mem_of_getElem? ((hl 0).symm.trans (by rfl))
  exact (hfind _ _).mpr ⟨_, hmem, ⟨2, by decide⟩, rfl⟩

end ProcFs

end Aurisys
