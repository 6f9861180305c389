import Aurisys.Kernel.Exec

/-!
# The files of `/proc`

A file of `/proc` is made anew by every read, into the buffer of the caller, from its first byte on.
What does not fit is cut off, and only then is what was read before shifted out. So a read at an
offset gets the bytes from there to the end of a text that is as long as the buffer: a second read
with a buffer that is no longer than the first gets nothing, although there is more.

## Main definitions

* `Sink`, with `put`, `num`, `field` and `finish`
* `readFile`, `ProcFile.fdRead`
* `textOf` — the text of a file, as a page takes it
* `Grows` — every buffer is longer than the one before, until one takes the text

## Main results

* `readFile_eq`
* `readUntil_iff`
-/

namespace Aurisys

open Kernel

namespace ProcFs

/-! ## The table

The strings of a task and of an open file fit the arrays they are in. -/

/-- `task::task`, with the ticks it has had. -/
structure ProcTask where
  task : Task
  utime : UInt32
  ktime : UInt32
  name_lt : task.name.length < 16
  cwd_lt : task.cwd.length < 128
  fdName_lt : ∀ i f, task.fd i = some f → f.n.name.length < 64

/-- `g_tasks`. -/
abbrev Table := Fin kMaxTask → ProcTask

/-- `kStat` to `kFdLink`, but for the directory. -/
inductive Kind
  | stat
  | status
  | cmdline
  | cwd
  | maps
  | fdLink

/-- `tag`, of a file. -/
structure Tag where
  k : Kind
  pid : ℕ
  fd : ℕ

/-- `by_pid`. -/
def byPid (ps : Table) (pid : ℕ) : Option ProcTask :=
  ((List.finRange kMaxTask).find? fun i => (ps i).task.state ≠ .free ∧ (ps i).task.pid = pid).map ps

/-- `signal_name`. -/
def signalName (sig : UInt32) : List UInt8 :=
  if sig = 15 then text "SIGTERM"
  else if sig = kSigKill then text "SIGKILL"
  else if sig = 17 then text "SIGCHLD"
  else if sig = kSigSegv then text "SIGSEGV"
  else if sig = 4 then text "SIGILL"
  else if sig = 7 then text "SIGBUS"
  else text "none"

/-- `state_name`. -/
def stateName : TaskState → List UInt8
  | .free => text "free"
  | .ready => text "ready"
  | .running => text "running"
  | .zombie => text "zombie"
  | .killed => text "killed"
  | .blocked => text "blocked"

/-! ## The sink -/

/-- `sink`, without the offset: the bytes in the buffer, and the room there is. -/
structure Sink where
  out : List UInt8
  len : ℕ

namespace Sink

/-- One byte, if there is room. -/
def byte (s : Sink) (c : UInt8) : Sink :=
  if s.out.length < s.len then { s with out := s.out ++ [c] } else s

/-- `put`. -/
def put (s : Sink) (t : List UInt8) : Sink := t.foldl byte s

/-- The digits of a number, the last one first. A word has ten at most. -/
def digits : ℕ → ℕ → List UInt8
  | 0, _ => []
  | fuel + 1, v => UInt8.ofNat (0x30 + v % 10) :: if v / 10 = 0 then [] else digits fuel (v / 10)

/-- `num`. -/
def num (s : Sink) (v : UInt32) : Sink := (digits 10 v.toNat).reverse.foldl byte s

/-- `field`. -/
def field (s : Sink) (v : UInt32) : Sink := (s.num v).put (text " ")

/-- `finish`: what is behind the offset. -/
def finish (s : Sink) (off : ℕ) : List UInt8 :=
  if s.out.length ≤ off then [] else (s.out.drop off).take s.len

end Sink

/-! ## The files -/

/-- `open_fds`. -/
def openFds (t : Task) : ℕ := ((List.finRange kMaxFd).filter fun i => (t.fd i).isSome).length

/-- `fill_stat`. -/
def fillStat (ps : Table) (g : Tag) (s : Sink) : Sink :=
  match byPid ps g.pid with
  | none => s
  | some t =>
    let s := s.field (UInt32.ofNat t.task.pid)
    let s := s.put (text "(")
    let s := s.put t.task.name
    let s := s.put (text ") ")
    let s := s.put (stateName t.task.state)
    let s := s.put (text " ")
    let s := s.field (UInt32.ofNat t.task.ppid)
    let s := s.field t.utime
    let s := s.field t.ktime
    let s := s.put (signalName t.task.signal)
    s.put (text "\n")

/-- `fill_status`. -/
def fillStatus (ps : Table) (g : Tag) (s : Sink) : Sink :=
  match byPid ps g.pid with
  | none => s
  | some t =>
    let s := s.put (text "Name:\t")
    let s := s.put t.task.name
    let s := s.put (text "\nState:\t")
    let s := s.put (stateName t.task.state)
    let s := s.put (text "\nPid:\t")
    let s := s.num (UInt32.ofNat t.task.pid)
    let s := s.put (text "\nPPid:\t")
    let s := s.num (UInt32.ofNat t.task.ppid)
    let s := s.put (text "\nSignal:\t")
    let s := s.num t.task.signal
    let s := s.put (text " ")
    let s := s.put (signalName t.task.signal)
    let s := s.put (text "\nUtime:\t")
    let s := s.num t.utime
    let s := s.put (text "\nKtime:\t")
    let s := s.num t.ktime
    let s := s.put (text "\nExit:\t")
    let s := s.num t.task.exitCode
    let s := s.put (text "\nFds:\t")
    let s := s.num (UInt32.ofNat (openFds t.task))
    s.put (text "\n")

/-- `fill_cmdline`. -/
def fillCmdline (ps : Table) (g : Tag) (s : Sink) : Sink :=
  match byPid ps g.pid with
  | none => s
  | some t => (s.put t.task.name).byte 0

/-- `fill_cwd`. -/
def fillCwd (ps : Table) (g : Tag) (s : Sink) : Sink :=
  match byPid ps g.pid with
  | none => s
  | some t => (s.put t.task.cwd).put (text "\n")

/-- `fill_maps`. -/
def fillMaps (s : Sink) : Sink :=
  let s := s.put (text "40000000-4003ffff r-xp 00000000 00:00 0                  code\n")
  let s := s.put (text "40100000-4010ffff rw-p 00000000 00:00 0                  stack\n")
  s.put (text "40200000-402fffff rw-p 00000000 00:00 0                  arena\n")

/-- The open file that `fill_fd` names. -/
def linked (ps : Table) (g : Tag) : Option OFile :=
  (byPid ps g.pid).bind fun t => if h : g.fd < kMaxFd then t.task.fd ⟨g.fd, h⟩ else none

/-- `fill_fd`. -/
def fillFd (ps : Table) (g : Tag) (s : Sink) : Sink :=
  match linked ps g with
  | none => s.put (text "gone\n")
  | some f =>
    let s := s.num (UInt32.ofNat g.fd)
    let s := s.put (text " -> ")
    let s := s.put f.n.name
    s.put (text "\n")

/-- The switch of `read_file`. -/
def fill (ps : Table) (g : Tag) (s : Sink) : Sink :=
  match g.k with
  | .stat => fillStat ps g s
  | .status => fillStatus ps g s
  | .cmdline => fillCmdline ps g s
  | .cwd => fillCwd ps g s
  | .maps => fillMaps s
  | .fdLink => fillFd ps g s

/-- `read_file`: the bytes that are in the buffer then. -/
def readFile (ps : Table) (g : Tag) (off len : ℕ) : List UInt8 :=
  if len = 0 then [] else (fill ps g ⟨[], len⟩).finish off

/-- A descriptor on a file of `/proc`. -/
structure ProcFile where
  g : Tag
  pos : ℕ

/-- `fd_read`. -/
def ProcFile.fdRead (ps : Table) (f : ProcFile) (len : ℕ) : List UInt8 × ProcFile :=
  let data := readFile ps f.g f.pos len
  (data, { f with pos := advance f.pos (toInt data.length) })

/-- One `fd_read` after the other, with the buffers there are, until one returns 0. -/
def readUntil (ps : Table) (lens : ℕ → ℕ) : ℕ → ℕ → ProcFile → List UInt8 → Option (List UInt8)
  | 0, _, _, _ => none
  | fuel + 1, k, f, acc =>
    let (data, f) := f.fdRead ps (lens k)
    if data = [] then some acc else readUntil ps lens fuel (k + 1) f (acc ++ data)

/-- The text of a file, as a page takes it. -/
def textOf (ps : Table) (g : Tag) : List UInt8 := (fill ps g ⟨[], 4096⟩).out

/-- Every buffer is longer than the one before, up to one that takes `n` bytes. -/
def Grows (n : ℕ) (lens : ℕ → ℕ) : Prop := ∃ m, n ≤ lens m ∧ ∀ i < m, lens i < lens (i + 1)

variable {ps : Table} {g : Tag} {n len off : ℕ} {T t u : List UInt8} {lens : ℕ → ℕ}

/-! ## What fits

Whatever is put into a sink, it holds the start of the text that would be there if there were
room. -/

namespace Sink

/-- The sink with as much of a text as there is room for. -/
def cut (len : ℕ) (t : List UInt8) : Sink := ⟨t.take len, len⟩

theorem byte_cut (len : ℕ) (u : List UInt8) (c : UInt8) :
    (cut len u).byte c = cut len (u ++ [c]) := by
  rw [byte, cut, cut]
  by_cases h : u.length < len
  · rw [List.take_of_length_le h.le, List.take_of_length_le (by simp; omega), if_pos h]
  · rw [List.take_append_of_le_length (by omega), if_neg (by simp; omega)]

theorem foldl_byte_cut (t : List UInt8) (len : ℕ) (u : List UInt8) :
    t.foldl byte (cut len u) = cut len (u ++ t) := by
  induction t generalizing u with
  | nil => rw [List.foldl_nil, List.append_nil]
  | cons c t ih => rw [List.foldl_cons, byte_cut, ih, List.append_assoc, List.singleton_append]

@[simp] theorem put_cut (len : ℕ) (u t : List UInt8) : (cut len u).put t = cut len (u ++ t) :=
  foldl_byte_cut t len u

@[simp] theorem num_cut (len : ℕ) (u : List UInt8) (v : UInt32) :
    (cut len u).num v = cut len (u ++ (digits 10 v.toNat).reverse) :=
  foldl_byte_cut _ len u

@[simp] theorem field_cut (len : ℕ) (u : List UInt8) (v : UInt32) :
    (cut len u).field v = cut len (u ++ (digits 10 v.toNat).reverse ++ text " ") := by
  rw [field, num_cut, put_cut]

theorem length_digits_le (fuel v : ℕ) : (digits fuel v).length ≤ fuel := by
  induction fuel generalizing v with
  | zero => exact Nat.le_refl 0
  | succ fuel ih =>
    rw [digits]
    split
    · simp
    · have := ih (v / 10)
      rw [List.length_cons]
      omega

end Sink

open Sink

theorem length_signalName_le (sig : UInt32) : (signalName sig).length ≤ 7 := by
  rw [signalName]
  split_ifs <;> decide

theorem length_stateName_le (st : TaskState) : (stateName st).length ≤ 7 := by
  cases st <;> decide

/-- A file has a text of at most a page, whatever the length of the buffer. -/
def Writes (f : Sink → Sink) : Prop := ∃ T, T.length ≤ 4096 ∧ ∀ len, f (cut len []) = cut len T

theorem writes_id : Writes fun s => s := ⟨[], by simp, fun _ => rfl⟩

theorem writes_fillStat (ps : Table) (g : Tag) : Writes (fillStat ps g) := by
  unfold fillStat
  cases byPid ps g.pid with
  | none => exact writes_id
  | some t =>
    refine ⟨_, ?_, fun len => by simp only [field_cut, put_cut]; rfl⟩
    have h1 := t.name_lt
    have h2 := length_stateName_le t.task.state
    have h3 := length_signalName_le t.task.signal
    have h4 := length_digits_le 10
    have h5 := h4 (t.task.pid % 4294967296)
    have h6 := h4 (t.task.ppid % 4294967296)
    have h7 := h4 t.utime.toNat
    have h8 := h4 t.ktime.toNat
    simp only [List.length_append, List.length_reverse, List.length_nil]
    simp [text]
    omega

theorem writes_fillStatus (ps : Table) (g : Tag) : Writes (fillStatus ps g) := by
  unfold fillStatus
  cases byPid ps g.pid with
  | none => exact writes_id
  | some t =>
    refine ⟨_, ?_, fun len => by simp only [num_cut, put_cut]; rfl⟩
    have h1 := t.name_lt
    have h2 := length_stateName_le t.task.state
    have h3 := length_signalName_le t.task.signal
    have h4 := length_digits_le 10
    have h5 := h4 (t.task.pid % 4294967296)
    have h6 := h4 (t.task.ppid % 4294967296)
    have h7 := h4 t.task.signal.toNat
    have h8 := h4 t.utime.toNat
    have h9 := h4 t.ktime.toNat
    have h10 := h4 t.task.exitCode.toNat
    have h11 := h4 (openFds t.task % 4294967296)
    simp only [List.length_append, List.length_reverse, List.length_nil]
    simp [text]
    omega

theorem writes_fillCmdline (ps : Table) (g : Tag) : Writes (fillCmdline ps g) := by
  unfold fillCmdline
  cases byPid ps g.pid with
  | none => exact writes_id
  | some t =>
    refine ⟨_, ?_, fun len => by simp only [put_cut, byte_cut]; rfl⟩
    have h1 := t.name_lt
    simp
    omega

theorem writes_fillCwd (ps : Table) (g : Tag) : Writes (fillCwd ps g) := by
  unfold fillCwd
  cases byPid ps g.pid with
  | none => exact writes_id
  | some t =>
    refine ⟨_, ?_, fun len => by simp only [put_cut]; rfl⟩
    have h1 := t.cwd_lt
    simp [text]
    omega

/-- A literal is the list of its characters, and it does not have to be decoded for its length. -/
theorem length_text_ofList_le {l : List Char} {n : ℕ} (h : l.length ≤ n) :
    (text (String.ofList l)).length ≤ n := by
  rwa [text, List.length_map, String.toList_ofList]

theorem writes_fillMaps : Writes fillMaps := by
  refine ⟨_, ?_, fun len => by simp only [fillMaps, put_cut]; rfl⟩
  have hlines : ∀ a b c : List UInt8, a.length ≤ 100 → b.length ≤ 100 → c.length ≤ 100 →
      ([] ++ a ++ b ++ c).length ≤ 4096 := by
    intro a b c _ _ _
    rw [List.nil_append, List.length_append, List.length_append]
    omega
  exact hlines _ _ _ (length_text_ofList_le (by decide)) (length_text_ofList_le (by decide))
    (length_text_ofList_le (by decide))

theorem linked_name_lt {f : OFile} (h : linked ps g = some f) : f.n.name.length < 64 := by
  obtain ⟨t, -, ht⟩ := Option.bind_eq_some_iff.mp h
  split at ht
  · exact t.fdName_lt _ f ht
  · cases ht

theorem writes_fillFd (ps : Table) (g : Tag) : Writes (fillFd ps g) := by
  unfold fillFd
  cases hf : linked ps g with
  | none =>
    refine ⟨_, ?_, fun len => by simp only [put_cut]; rfl⟩
    decide
  | some f =>
    refine ⟨_, ?_, fun len => by simp only [num_cut, put_cut]; rfl⟩
    have h1 := linked_name_lt hf
    have h2 := length_digits_le 10 (g.fd % 4294967296)
    simp only [List.length_append, List.length_reverse, List.length_nil]
    simp [text]
    omega

/-- Every file has one text. -/
theorem writes_fill (ps : Table) (g : Tag) : Writes (fill ps g) := by
  rw [show fill ps g = fun s => fill ps g s from rfl]
  unfold fill
  cases g.k with
  | stat => exact writes_fillStat ps g
  | status => exact writes_fillStatus ps g
  | cmdline => exact writes_fillCmdline ps g
  | cwd => exact writes_fillCwd ps g
  | maps => exact writes_fillMaps
  | fdLink => exact writes_fillFd ps g

theorem fill_eq (ps : Table) (g : Tag) (len : ℕ) : fill ps g ⟨[], len⟩ = cut len (textOf ps g) := by
  obtain ⟨T, hT, h⟩ := writes_fill ps g
  have hnil : ∀ len, (⟨[], len⟩ : Sink) = cut len [] := fun len => by rw [cut, List.take_nil]
  have hout : (cut 4096 T).out = T := List.take_of_length_le hT
  rw [textOf, hnil, hnil, h, h, hout]

theorem length_textOf_le (ps : Table) (g : Tag) : (textOf ps g).length ≤ 4096 := by
  have h : textOf ps g = (cut 4096 (textOf ps g)).out := by rw [← fill_eq, textOf]
  rw [h, cut, List.length_take]
  exact Nat.min_le_left _ _

/-! ## Reading -/

/-- **What a read gets**: what is behind the offset, of as much of the text as the buffer holds. -/
theorem readFile_eq (ps : Table) (g : Tag) (off len : ℕ) :
    readFile ps g off len = ((textOf ps g).take len).drop off := by
  rw [readFile]
  by_cases h0 : len = 0
  · rw [if_pos h0, h0, List.take_zero, List.drop_nil]
  · rw [if_neg h0, fill_eq, finish, cut]
    by_cases hoff : ((textOf ps g).take len).length ≤ off
    · rw [if_pos hoff, List.drop_eq_nil_of_le hoff]
    · rw [if_neg hoff]
      refine List.take_of_length_le ?_
      change (((textOf ps g).take len).drop off).length ≤ len
      rw [List.length_drop, List.length_take]
      omega

/-- A read with a buffer that is no longer than the position gets nothing, and one with a longer one
goes to the end of the buffer or of the text. -/
theorem fdRead_eq (ps : Table) (g : Tag) {pos : ℕ} (hpos : pos ≤ (textOf ps g).length) (len : ℕ) :
    (⟨g, pos⟩ : ProcFile).fdRead ps len = (((textOf ps g).take len).drop pos,
      ⟨g, max pos (min len (textOf ps g).length)⟩) := by
  have hT := length_textOf_le ps g
  have hlen : (((textOf ps g).take len).drop pos).length = min len (textOf ps g).length - pos := by
    rw [List.length_drop, List.length_take]
  rw [ProcFile.fdRead]
  simp only []
  have hint : toInt (min len (textOf ps g).length - pos) =
    ((min len (textOf ps g).length - pos : ℕ) : ℤ) :=
    if_pos (by omega)
  rw [readFile_eq, hlen, hint, advance]
  by_cases h : 0 < min len (textOf ps g).length - pos
  · rw [if_pos (by exact_mod_cast h), Int.toNat_natCast, Nat.mod_eq_of_lt (by omega)]
    have hmax : pos + (min len (textOf ps g).length - pos) =
      max pos (min len (textOf ps g).length) := by omega
    rw [hmax]
  · rw [if_neg (by omega), Nat.max_eq_left (by omega)]

/-- One read, with room for everything. -/
theorem fdRead_whole (ps : Table) (g : Tag) (hlen : (textOf ps g).length ≤ len) :
    ((⟨g, 0⟩ : ProcFile).fdRead ps len).1 = textOf ps g := by
  rw [fdRead_eq ps g (Nat.zero_le _), List.take_of_length_le hlen, List.drop_zero]

/-- From a position on, the rest of the text is read if and only if the buffers grow from there. -/
theorem readUntil_from (ps : Table) (g : Tag) (lens : ℕ → ℕ) {fuel k pos : ℕ}
    (hpos : pos ≤ (textOf ps g).length) (hfuel : (textOf ps g).length < pos + fuel) :
    readUntil ps lens fuel k ⟨g, pos⟩ ((textOf ps g).take pos) = some (textOf ps g) ↔
      pos = (textOf ps g).length ∨ ∃ m ≥ k, (textOf ps g).length ≤ lens m ∧ pos < lens k ∧
        ∀ i, k ≤ i → i < m → lens i < lens (i + 1) := by
  induction fuel generalizing k pos with
  | zero => omega
  | succ fuel ih =>
    generalize hn : (textOf ps g).length = n at *
    have hdata : (((textOf ps g).take (lens k)).drop pos).length = min (lens k) n - pos := by
      rw [List.length_drop, List.length_take, hn]
    rw [readUntil, fdRead_eq ps g (by omega), hn]
    simp only []
    by_cases hend : min (lens k) n ≤ pos
    · rw [if_pos (List.eq_nil_of_length_eq_zero (by omega)), Option.some.injEq]
      constructor
      · intro heq
        have hle := congrArg List.length heq
        rw [List.length_take, hn] at hle
        left
        omega
      · rintro (heq | ⟨m, -, -, hlt, -⟩)
        · rw [List.take_of_length_le (by omega)]
        · rw [List.take_of_length_le (by omega)]
    · have hne : ((textOf ps g).take (lens k)).drop pos ≠ [] := by
        intro hnil
        rw [hnil, List.length_nil] at hdata
        omega
      rw [if_neg hne]
      have hnext : max pos (min (lens k) n) = min (lens k) n := by omega
      have hacc : (textOf ps g).take pos ++ ((textOf ps g).take (lens k)).drop pos =
          (textOf ps g).take (min (lens k) n) := by
        rw [List.take_eq_take_iff.mpr (show min (min (lens k) n) (textOf ps g).length =
          min (lens k) (textOf ps g).length by omega)]
        conv_rhs => rw [← List.take_append_drop pos ((textOf ps g).take (lens k))]
        rw [List.take_take, Nat.min_eq_left (by omega)]
      rw [hnext, hacc, ih (by omega) (by omega)]
      by_cases hbig : n ≤ lens k
      · refine iff_of_true (.inl (by omega)) (.inr ⟨k, le_rfl, hbig, by omega,
          fun i h1 h2 => by omega⟩)
      · have hmin : min (lens k) n = lens k := by omega
        rw [hmin]
        constructor
        · rintro (heq | ⟨m, hm, hle, hlt, hstep⟩)
          · omega
          · refine .inr ⟨m, by omega, hle, by omega, fun i h1 h2 => ?_⟩
            rcases Nat.eq_or_lt_of_le h1 with rfl | h1
            · exact hlt
            · exact hstep i h1 h2
        · rintro (heq | ⟨m, hm, hle, -, hstep⟩)
          · omega
          · have hmk : m ≠ k := fun h => hbig (h ▸ hle)
            exact .inr ⟨m, by omega, hle, hstep k le_rfl (by omega),
              fun i h1 h2 => hstep i (by omega) h2⟩

/-- **When the chunks are the file.** -/
theorem readUntil_iff (ps : Table) (g : Tag) {lens : ℕ → ℕ} (hlens : ∀ k, 0 < lens k)
    (hwhole : (textOf ps g).length ≤ len) :
    readUntil ps lens ((textOf ps g).length + 1) 0 ⟨g, 0⟩ [] =
    some ((⟨g, 0⟩ : ProcFile).fdRead ps len).1 ↔
      textOf ps g = [] ∨ Grows (textOf ps g).length lens := by
  have hfuel : (textOf ps g).length < 0 + ((textOf ps g).length + 1) := by omega
  have hfrom := readUntil_from ps g lens (k := 0) (Nat.zero_le (textOf ps g).length) hfuel
  rw [List.take_zero] at hfrom
  rw [fdRead_whole ps g hwhole, hfrom]
  refine or_congr ?_ ?_
  · rw [eq_comm, List.length_eq_zero_iff]
  · constructor
    · rintro ⟨m, -, hle, -, hstep⟩
      exact ⟨m, hle, fun i hi => hstep i (Nat.zero_le i) hi⟩
    · rintro ⟨m, hle, hstep⟩
      exact ⟨m, Nat.zero_le m, hle, hlens 0, fun i _ hi => hstep i hi⟩

/-- A slot that is free. -/
def ProcTask.zero : ProcTask where
  task := .zero
  utime := 0
  ktime := 0
  name_lt := by decide
  cwd_lt := by decide
  fdName_lt := nofun

/-- One process, `init`. -/
def onlyInit : Table := fun i =>
  if i = 0 then
    { task := { Task.zero with pid := 1, state := .running, name := text "init", cwd := text "/" }
      utime := 12, ktime := 3, name_lt := by decide, cwd_lt := by decide, fdName_lt := nofun }
  else .zero

/-- Its directory fits the first buffer. -/
theorem readUntil_cwd :
    readUntil onlyInit (fun _ => 10) ((textOf onlyInit ⟨.cwd, 1, 0⟩).length + 1) 0
    ⟨⟨.cwd, 1, 0⟩, 0⟩ [] =
        some ((⟨⟨.cwd, 1, 0⟩, 0⟩ : ProcFile).fdRead onlyInit 4096).1 ↔
      textOf onlyInit ⟨.cwd, 1, 0⟩ = [] ∨ Grows (textOf onlyInit ⟨.cwd, 1, 0⟩).length fun _ => 10 :=
  readUntil_iff onlyInit ⟨.cwd, 1, 0⟩ (fun _ => by decide) (length_textOf_le _ _)

/-- Sixteen bytes at a time, `stat` ends after the first sixteen. -/
theorem readUntil_stat :
    readUntil onlyInit (fun _ => 16) ((textOf onlyInit ⟨.stat, 1, 0⟩).length + 1) 0
    ⟨⟨.stat, 1, 0⟩, 0⟩ [] =
        some (text "1 (init) running") ∧
      ((⟨⟨.stat, 1, 0⟩, 0⟩ : ProcFile).fdRead onlyInit 4096).1 =
      text "1 (init) running 0 12 3 none\n" ∧
      text "1 (init) running" ≠ text "1 (init) running 0 12 3 none\n" := by
  refine ⟨?_, ?_, ?_⟩ <;> decide +kernel

end ProcFs

end Aurisys
