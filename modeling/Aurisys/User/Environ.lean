import Aurisys.Kernel.Args
import Aurisys.Kernel.Str
import Aurisys.Sh.Env

/-!
# The environment of a program

What the shell has set comes to a program by way of `execve`: the entries are copied out of the
space of the shell, laid on the stack of the new image, and found there by `_start`, which keeps
where they are in `environ`. `getenv` looks through them with `strncmp`.

So a program finds under each name what the shell has last set it to, as long as it has not written
above the stack pointer it was started with.

## Main definitions

* `environ`, `getenv`
* `valueIn` — what a list of entries has under a name

## Main results

* `getenv_spec`
* `getenv_exec`
-/

namespace Aurisys

open Bytes CStr Sh

namespace Args

/-- What `_start` stores in `environ`. -/
def environ (m : Bytes) (esp : ℕ) : ℕ := esp + 8 + 4 * r32 m esp

/-- The loop of `getenv`, for a name of `n` bytes. -/
def getenvFrom (m : Bytes) (name n : ℕ) : ℕ → ℕ → Option ℕ
  | 0, _ => none
  | fuel + 1, e =>
    if r32 m e = 0 then none
    else if strncmp m n (r32 m e) name = 0 ∧ m (r32 m e + n) = equals then some (r32 m e + n + 1)
    else getenvFrom m name n fuel (e + 4)

/-- `getenv`, with what is in `environ`. -/
def getenv (m : Bytes) (env name : ℕ) : Option ℕ :=
  if env = 0 ∨ name = 0 then none else getenvFrom m name (strlen m name) (2 ^ 30) env

/-- The value of the first entry that begins with the name and a `=`. -/
def valueIn (entries : List Str) (name : Str) : Option Str :=
  (entries.find? fun e => decide (name ++ [equals] <+: e)).map fun e => e.drop (name.length + 1)

variable {m m' flat stack : Bytes} {p q n esp : ℕ} {s name entry : Str}
  {argv envp entries : List Str}

/-! ## One entry -/

/-- What there is at an address is a string, if its end is in reach. -/
theorem isStr_cstr {p : ℕ} (h : strlenUpTo m n p < n) :
    IsStr m p ((List.range (strlenUpTo m n p)).map fun i => m (p + i)) := by
  induction n generalizing p with
  | zero => exact absurd h (Nat.not_lt_zero _)
  | succ n ih =>
    rw [strlenUpTo] at h ⊢
    by_cases hz : m p = 0
    · simp [hz, IsStr]
    · rw [if_neg hz] at h ⊢
      have hrest := ih (Nat.lt_of_succ_lt_succ h)
      rw [List.range_succ_eq_map, List.map_cons, List.map_map]
      refine ⟨hz, rfl, ?_⟩
      have hshift : ((fun i => m (p + i)) ∘ Nat.succ) = fun i => m (p + 1 + i) := by
        funext i
        simp [Nat.add_assoc, Nat.add_comm 1 i]
      rwa [hshift]

theorem isStr_of_cstr (h : Bytes.cstr m p = s) (hs : s.length < 2 ^ 32) : IsStr m p s := by
  have hlen : strlen m p = s.length := by rw [← h, Bytes.cstr, List.length_map, List.length_range]
  have hstr := isStr_cstr (m := m) (n := 2 ^ 32) (p := p) (hlen ▸ hs : strlen m p < 2 ^ 32)
  exact h ▸ hstr

/-- **The test of `getenv`** is whether the entry begins with the name and a `=`. -/
theorem matches_iff (he : IsStr m q entry) (hn : IsStr m p name) :
    strncmp m name.length q p = 0 ∧ m (q + name.length) = equals ↔ name ++ [equals] <+: entry := by
  rw [(strncmp_spec he hn name.length).1, List.take_length]
  constructor
  · rintro ⟨htake, hend⟩
    obtain ⟨rest, rfl⟩ : ∃ rest, entry = name ++ rest := ⟨entry.drop name.length, by
      conv => lhs; rw [← List.take_append_drop name.length entry, htake]⟩
    have hrest := he.behind
    cases rest with
    | nil =>
      have hz : m (q + name.length) = 0 := hrest
      exact absurd (hz.symm.trans hend) (by decide)
    | cons c rest =>
      obtain rfl : c = equals := hrest.2.1.symm.trans hend
      exact ⟨rest, by simp⟩
  · rintro ⟨rest, rfl⟩
    rw [List.append_assoc] at he ⊢
    exact ⟨List.take_left, he.behind.2.1⟩

/-- The value is behind them. -/
theorem value_of_matches (he : IsStr m q entry) (hlen : entry.length < 2 ^ 32)
    (h : name ++ [equals] <+: entry) :
    Bytes.cstr m (q + name.length + 1) = entry.drop (name.length + 1) := by
  obtain ⟨rest, rfl⟩ := h
  have hrest := he.behind
  rw [List.length_append, List.length_singleton, ← Nat.add_assoc] at hrest
  rw [hrest.cstr_eq (by simp at hlen; omega)]
  exact (List.drop_left' (by simp)).symm

/-! ## The vector -/

/-- **`getenv`** finds the first entry for the name. -/
theorem getenvFrom_spec (hn : IsStr m p name) (hlen : ∀ e ∈ entries, e.length < 2 ^ 32) {fuel e : ℕ}
    (h : readVector m fuel e = entries) :
    (getenvFrom m p name.length fuel e).map (Bytes.cstr m) = valueIn entries name := by
  induction fuel generalizing e entries with
  | zero =>
    obtain rfl : entries = [] := h.symm
    rfl
  | succ fuel ih =>
    rw [readVector] at h
    rw [getenvFrom]
    by_cases hz : r32 m e = 0
    · rw [if_pos hz] at h ⊢
      obtain rfl := h
      rfl
    · rw [if_neg hz] at h ⊢
      obtain rfl := h
      have hentry := isStr_of_cstr (m := m) (p := r32 m e) rfl (hlen _ (List.mem_cons_self ..))
      have hmatch := matches_iff hentry hn
      rw [valueIn, List.find?_cons]
      by_cases hpre : name ++ [equals] <+: Bytes.cstr m (r32 m e)
      · rw [if_pos (hmatch.mpr hpre), decide_eq_true hpre, Option.map_some,
          value_of_matches hentry (hlen _ (List.mem_cons_self ..)) hpre]
        rfl
      · rw [if_neg fun h => hpre (hmatch.mp h), decide_eq_false hpre,
          ih (fun s hs => hlen s (List.mem_cons_of_mem _ hs)) rfl]
        rfl

/-- What `getenv` gives is what the entries have that `_start` has found. -/
theorem getenv_spec {argc : ℕ} (h : crt0 m esp = ⟨argc, argv, envp⟩)
    (hlen : ∀ e ∈ envp, e.length < 2 ^ 32)
    (hn : IsStr m p name) (hname : name.length < 2 ^ 32) (hp : p ≠ 0) :
    (getenv m (environ m esp) p).map (Bytes.cstr m) = valueIn envp name := by
  have hne : ¬(environ m esp = 0 ∨ p = 0) := by
    rintro (h | h)
    · rw [environ] at h
      omega
    · exact hp h
  rw [getenv, if_neg hne, hn.strlen_eq hname]
  exact getenvFrom_spec hn hlen (congrArg Start.environ h)

/-! ## What the shell has set -/

/-- **A row for a name** is the one that `env_get` finds. -/
theorem valueIn_vector {e : Env} (h : e.Tidy) (hname : equals ∉ name) :
    valueIn e.vector name = e.get name := by
  have hrow : ∀ i < e.n, (name ++ [equals] <+: e.rows i ↔ envIs (e.rows i) name = true) ∧
      (name ++ [equals] <+: e.rows i → (e.rows i).drop (name.length + 1) = valueOf (e.rows i)) := by
    intro i hi
    obtain ⟨name', value, hrow, -, hname'⟩ := h.form i hi
    rw [hrow, envIs_iff hname' hname]
    have hiff : name ++ [equals] <+: name' ++ equals :: value ↔ name' = name := by
      constructor
      · rintro ⟨rest, hrest⟩
        rw [List.append_assoc] at hrest
        exact (entry_inj hname hname' hrest).1.symm
      · rintro rfl
        exact ⟨value, by simp⟩
    refine ⟨hiff, fun hpre => ?_⟩
    obtain rfl := hiff.mp hpre
    rw [valueOf_entry hname', ← List.singleton_append, ← List.append_assoc]
    exact List.drop_left' (by simp)
  rw [valueIn, Env.get, Env.slotOf, Env.vector, List.find?_map, Option.map_map]
  have hsame : ∀ i ∈ List.range e.n,
      ((fun r => decide (name ++ [equals] <+: r)) ∘ e.rows) i = envIs (e.rows i) name := by
    intro i hi
    have := (hrow i (List.mem_range.mp hi)).1
    rw [Function.comp_apply]
    by_cases hpre : name ++ [equals] <+: e.rows i
    · rw [decide_eq_true hpre, this.mp hpre]
    · rw [decide_eq_false hpre, Bool.eq_false_iff.mpr fun ht => hpre (this.mpr ht)]
  rw [← List.head?_filter, List.filter_congr hsame, List.head?_filter]
  cases hfound : (List.range e.n).find? fun i => envIs (e.rows i) name with
  | none => rfl
  | some i =>
    have hi := List.mem_range.mp (List.mem_of_find?_eq_some hfound)
    have his := List.find?_some hfound
    rw [Option.map_some, Option.map_some, Function.comp_apply,
      (hrow i hi).2 ((hrow i hi).1.mpr his)]

/-- The table and its rows have their sizes. -/
structure Fits (e : Env) : Prop where
  n : e.n ≤ kMaxEnv
  rows : ∀ i, (e.rows i).length < kEnvMax

namespace Fits

variable {e : Env}

theorem init : Fits .init := ⟨Nat.zero_le _, fun _ => Nat.zero_lt_succ _⟩

theorem write (h : Fits e) (slot : ℕ) (name value : Str) : Fits (e.write slot name value) := by
  rw [Env.write]
  split
  · exact h
  · next hlen =>
    refine ⟨h.n, fun i => ?_⟩
    simp only [Function.update_apply]
    split
    · rw [List.length_append, List.length_cons]
      omega
    · exact h.rows i

theorem assign (h : Fits e) (name value : Str) : Fits (e.assign name value) := by
  rw [Env.assign]
  split
  · exact h
  · split
    · exact h.write _ _ _
    · split
      · exact h
      · next hroom =>
        have hgrown : Fits { e with n := e.n + 1 } := ⟨not_le.mp hroom, h.rows⟩
        exact hgrown.write _ _ _

theorem unset (h : Fits e) (name : Str) : Fits (e.unset name) := by
  rw [Env.unset]
  split
  · exact h
  · refine ⟨(Nat.sub_le _ _).trans h.n, fun i => ?_⟩
    simp only [Env.Tidy.shifted]
    split
    · exact h.rows _
    · exact h.rows i

/-- **Each call** keeps the sizes. -/
theorem apply (h : Fits e) (op : EnvOp) : Fits (op.apply e) := by
  cases op with
  | set s =>
    change Fits (e.set s)
    rw [Env.set]
    split
    · exact h.assign _ _
    · split
      · exact h
      · exact h.assign _ _
  | assign name value => exact h.assign name value
  | unset name => exact h.unset name
  | get name => exact h

theorem foldl (ops : List EnvOp) {r : EnvRun} (h : Fits r.env) :
    Fits (ops.foldl EnvRun.step r).env := by
  induction ops generalizing r with
  | nil => exact h
  | cons op ops ih => exact ih (h.apply op)

end Fits

/-- The entries are a map after any calls that are safe. -/
theorem inv_foldl (ops : List EnvOp) {r : EnvRun} (h : r.Inv) (safe : r.Safe ops) :
    (ops.foldl EnvRun.step r).Inv := by
  induction ops generalizing r with
  | nil => exact h
  | cons op ops ih => exact ih (h.step safe.1) safe.2

/-- **A program finds what the shell has set.** After any assignments and removals that are safe,
`execve` with the vector of the shell succeeds in copying the arguments and laying them out, and
whatever the new image does below the stack pointer that it gets, `getenv` finds under each name
what was last assigned to it, and nothing if it was removed since. -/
theorem getenv_exec (ops : List EnvOp) (safe : EnvRun.Safe ⟨.init, []⟩ ops)
    {av ev : List ℕ} (out stack : Bytes)
    (hav : List.Forall₂ (IsStr m) av argv)
    (hev : List.Forall₂ (IsStr m) ev (EnvRun.after ops).env.vector)
    (ha : argv.length ≤ kCopyArg) (hs : ∀ s ∈ argv, s.length < kCopyStr) :
    ∃ flat esp stack', copyArgs m av ev out = some flat ∧ buildStack flat stack = (esp,
      stack') ∧ esp ≠ 0 ∧
      ∀ m' : Bytes, (∀ a, esp ≤ a → a < kStackBase + kStackBytes → m' a = stack' a) →
      ∀ name p, IsStr m' p name → p ≠ 0 → name.length < 2 ^ 32 → equals ∉ name →
        (getenv m' (environ m' esp) p).map (Bytes.cstr m') = (EnvRun.after ops).last name := by
  have hinv : (EnvRun.after ops).Inv := inv_foldl ops EnvRun.inv_init safe
  have hfits : Fits (EnvRun.after ops).env := Fits.init.foldl ops
  have hrow : ∀ e ∈ (EnvRun.after ops).env.vector, e.length < kCopyStr := by
    intro e he
    obtain ⟨i, -, rfl⟩ := List.mem_map.mp he
    exact (hfits.rows i).trans (by decide)
  have hcount : (EnvRun.after ops).env.vector.length ≤ kCopyEnv := by
    rw [Env.vector, List.length_map, List.length_range]
    exact hfits.n
  have hall : ∀ s ∈ argv ++ (EnvRun.after ops).env.vector, s.length < kCopyStr := by
    intro s h
    rcases List.mem_append.mp h with h | h
    · exact hs s h
    · exact hrow s h
  obtain ⟨flat, hcopy, hflat, -⟩ := copyArgs_spec out hav hev ha hcount hall
  obtain ⟨esp, stack', hbuild, hlo, -, -, hstays⟩ :=
    buildStack_stays (m := stack) hflat ha hcount hall
  have hbase : kStackBase = 0x40100000 := rfl
  refine ⟨flat, esp, stack', hcopy, hbuild, by omega, fun m' hm name p hn hp hlen hname => ?_⟩
  have hshort : ∀ e ∈ (EnvRun.after ops).env.vector, e.length < 2 ^ 32 := fun e he =>
    (hrow e he).trans (by decide)
  rw [getenv_spec (hstays m' hm).1 hshort hn hlen hp, valueIn_vector hinv.tidy hname]
  exact hinv.isMap.get name hname

/-- The argument `a` and the variable `A=1`. -/
def passed : Bytes := fun a => ([97, 0, 65, 61, 49, 0] : Str).getD (a - 100) 0

theorem getenv_exec_passed : ∃ flat esp stack', copyArgs passed [100] [102]
    (fun _ => 0) = some flat ∧
    buildStack flat (fun _ => 0) = (esp, stack') ∧
    ∀ m' : Bytes, (∀ a, esp ≤ a → a < kStackBase + kStackBytes → m' a = stack' a) →
      ∀ p, IsStr m' p [65] → p ≠ 0 → (getenv m' (environ m' esp) p).map (Bytes.cstr m') =
      some [49] := by
  have safe : EnvRun.Safe ⟨.init, []⟩ [.set [65, 61, 49]] := by
    refine ⟨fun p hp => ?_, trivial⟩
    obtain rfl := Option.some.inj hp
    decide
  have hav : List.Forall₂ (IsStr passed) [100] [[97]] := .cons ⟨by decide, rfl, rfl⟩ .nil
  have hev : List.Forall₂ (IsStr passed) [102] (EnvRun.after [.set [65, 61, 49]]).env.vector :=
    .cons ⟨by decide, rfl, by decide, rfl, by decide, rfl, rfl⟩ .nil
  obtain ⟨flat, esp, stack', hcopy, hbuild, -, hget⟩ :=
    getenv_exec _ safe (fun _ => 0) (fun _ => 0) hav hev (by decide) (by decide)
  refine ⟨flat, esp, stack', hcopy, hbuild, fun m' hm p hn hp => ?_⟩
  exact hget m' hm [65] p hn hp (by decide) (by decide)

end Args

end Aurisys
