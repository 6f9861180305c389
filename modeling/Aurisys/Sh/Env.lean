import Aurisys.Sh.Glob

/-!
# The environment of the shell

`g_env` has 32 rows of 128 bytes, and an entry is a row `NAME=VALUE`. What is behind the entries is
what earlier entries have left there.

`env_assign` counts the new entry before it looks at its length. If the entry is too long, the row
has been made an entry with what was left in it. And a name ends at a `=` for `env_is`, so that a
name with one is taken for what is in front of it.

## Main definitions

* `Env`, `Env.get`, `Env.assign`, `Env.set`, `Env.unset`, `Env.vector`
* `EnvOp`, `EnvRun` — assignments, removals and look-ups, and which assignments were accepted
* `EnvRun.IsMap` — the entries are a map of what was accepted
* `EnvOp.Safe` — no row is made an entry that is not written, and no name with a `=` is used for
  another

## Main results

* `EnvRun.Inv.step`
* `EnvRun.correct_of_safe`
-/

namespace Aurisys.Sh

def kMaxEnv : ℕ := 32

def kEnvMax : ℕ := 128

def equals : UInt8 := 61

/-- `g_env` and `g_env_n`. -/
structure Env where
  rows : ℕ → Str
  n : ℕ

/-- The part of an entry before the `=`. -/
def nameOf (entry : Str) : Str := entry.takeWhile (· ≠ equals)

/-- The part of an entry behind the `=`. -/
def valueOf (entry : Str) : Str := (entry.dropWhile (· ≠ equals)).tail

/-- `env_is`. A name ends at a `=`. -/
def envIs : Str → Str → Bool
  | entry, [] => entry.head? = some equals
  | entry, c :: name =>
    if c = equals then entry.head? = some equals
    else
      match entry with
      | [] => false
      | d :: entry => d = c && envIs entry name

namespace Env

/-- The loop of `env_get`, `env_assign` and `env_unset`. -/
def slotOf (e : Env) (name : Str) : Option ℕ :=
  (List.range e.n).find? fun i => envIs (e.rows i) name

/-- `env_get`. -/
def get (e : Env) (name : Str) : Option Str := (e.slotOf name).map fun i => valueOf (e.rows i)

/-- The end of `env_assign`. -/
def write (e : Env) (slot : ℕ) (name value : Str) : Env :=
  if kEnvMax ≤ name.length + value.length + 2 then e
  else { e with rows := Function.update e.rows slot (name ++ equals :: value) }

/-- `env_assign`. -/
def assign (e : Env) (name value : Str) : Env :=
  if name = [] then e
  else
    match e.slotOf name with
    | some slot => e.write slot name value
    | none => if kMaxEnv ≤ e.n then e else { e with n := e.n + 1 }.write e.n name value

/-- `env_set`. -/
def set (e : Env) (s : Str) : Env :=
  if equals ∉ s then e.assign s []
  else if 64 ≤ (nameOf s).length then e
  else e.assign (nameOf s) (valueOf s)

/-- `env_unset`. -/
def unset (e : Env) (name : Str) : Env :=
  match e.slotOf name with
  | none => e
  | some i =>
    let down rows k := Function.update rows (k - 1) (rows k)
    ⟨(List.range' (i + 1) (e.n - (i + 1))).foldl down e.rows, e.n - 1⟩

/-- `env_vector`. -/
def vector (e : Env) : List Str := (List.range e.n).map e.rows

/-- The variable when the shell starts. -/
def init : Env := ⟨fun _ => [], 0⟩

end Env

/-! ## Runs -/

/-- A call. -/
inductive EnvOp
  | set (s : Str)
  | assign (name value : Str)
  | unset (name : Str)
  | get (name : Str)

def EnvOp.apply (e : Env) : EnvOp → Env
  | set s => e.set s
  | assign name value => e.assign name value
  | unset name => e.unset name
  | get _ => e

/-- A call of `env_set` or `env_assign`. -/
def EnvOp.Assigns : EnvOp → Prop
  | set _ | assign _ _ => True
  | unset _ | get _ => False

/-- The name and the value that a call gives to `env_assign`. -/
def EnvOp.given : EnvOp → Option (Str × Str)
  | set s =>
    if equals ∉ s then some (s, [])
    else if 64 ≤ (nameOf s).length then none
    else some (nameOf s, valueOf s)
  | assign name value => some (name, value)
  | unset _ | get _ => none

/-- `env_assign` stores this. -/
def Env.Accepts (e : Env) (p : Str × Str) : Prop :=
  p.1 ≠ [] ∧ (e.slotOf p.1 = none → e.n < kMaxEnv) ∧ p.1.length + p.2.length + 2 < kEnvMax

instance (e : Env) (p : Str × Str) : Decidable (e.Accepts p) :=
  inferInstanceAs (Decidable (_ ∧ _ ∧ _))

/-- The environment, and what was accepted and removed, the last first. -/
structure EnvRun where
  env : Env
  log : List (Str × Option Str)

/-- What a call adds to the log. -/
def EnvOp.logged (e : Env) : EnvOp → List (Str × Option Str)
  | unset name => [(name, none)]
  | op => (op.given.toList.filter fun p => e.Accepts p).map fun p => (p.1, some p.2)

def EnvRun.step (r : EnvRun) (op : EnvOp) : EnvRun := ⟨op.apply r.env, op.logged r.env ++ r.log⟩

def EnvRun.after (ops : List EnvOp) : EnvRun := ops.foldl EnvRun.step ⟨.init, []⟩

/-- The value of the last accepted assignment to a name, if it was not removed since. -/
def EnvRun.last (r : EnvRun) (name : Str) : Option Str :=
  (r.log.find? fun p => p.1 = name).bind Prod.snd

/-- **The entries are a map of what was accepted.** -/
structure EnvRun.IsMap (r : EnvRun) : Prop where
  /-- A name has what was accepted for it last. -/
  get : ∀ name, equals ∉ name → r.env.get name = r.last name
  /-- No name has two entries. -/
  names : (r.env.vector.map nameOf).Nodup
  /-- An entry is a name and a value. -/
  form : ∀ entry ∈ r.env.vector, ∃ name value, entry = name ++ equals :: value ∧
    name ≠ [] ∧ equals ∉ name

/-- A call makes an assignment, and it is not accepted. -/
def EnvOp.Refused (e : Env) (op : EnvOp) : Prop := op.Assigns ∧ ∀ p ∈ op.given, ¬e.Accepts p

/-- **No row is made an entry that is not written**, no name that is stored has a `=`, and none that
is looked for and has one is taken for another. -/
def EnvOp.Safe (e : Env) : EnvOp → Prop
  | unset name | get name => equals ∈ name → e.slotOf name = none
  | op => ∀ p ∈ op.given, (e.Accepts p → equals ∉ p.1) ∧
    ¬(p.1 ≠ [] ∧ e.slotOf p.1 = none ∧ e.n < kMaxEnv ∧ kEnvMax ≤ p.1.length + p.2.length + 2)

/-- Each call of a run is safe. -/
def EnvRun.Safe (r : EnvRun) : List EnvOp → Prop
  | [] => True
  | op :: ops => op.Safe r.env ∧ (r.step op).Safe ops

/-- `env_get` gives what was assigned last. -/
def EnvOp.Finds (r : EnvRun) : EnvOp → Prop
  | get name => r.env.get name = r.last name
  | _ => True

/-- In each state of a run the entries are a map, what is looked for is found, and a refused
assignment leaves all as it is. -/
def EnvRun.Correct (r : EnvRun) : List EnvOp → Prop
  | [] => r.IsMap
  | op :: ops => r.IsMap ∧ op.Finds r ∧ (op.Refused r.env → op.apply r.env = r.env) ∧
      (r.step op).Correct ops

/-! ## Entries -/

variable {e : Env} {r : EnvRun} {name name' value value' entry : Str} {i j : ℕ} {op : EnvOp}

theorem nameOf_entry (h : equals ∉ name) (value : Str) :
    nameOf (name ++ equals :: value) = name := by
  have hall : ∀ c ∈ name, decide (c ≠ equals) = true := by
    intro c hc
    exact decide_eq_true fun he => h (he ▸ hc)
  rw [nameOf, List.takeWhile_append_of_pos hall, List.takeWhile_cons_of_neg (by simp),
    List.append_nil]

theorem valueOf_entry (h : equals ∉ name) (value : Str) :
    valueOf (name ++ equals :: value) = value := by
  have hall : ∀ c ∈ name, decide (c ≠ equals) = true := by
    intro c hc
    exact decide_eq_true fun he => h (he ▸ hc)
  rw [valueOf, List.dropWhile_append_of_pos hall, List.dropWhile_cons_of_neg (by simp),
    List.tail_cons]

theorem envIs_iff (h : equals ∉ name) (h' : equals ∉ name') (value : Str) :
    envIs (name ++ equals :: value) name' = true ↔ name = name' := by
  induction name' generalizing name with
  | nil =>
    cases name with
    | nil => simp [envIs]
    | cons d name =>
      have hne : d ≠ equals := fun he => h (he ▸ List.mem_cons_self)
      simp [envIs, hne]
  | cons c name' ih =>
    have hne : c ≠ equals := fun he => h' (he ▸ List.mem_cons_self)
    cases name with
    | nil => simp [envIs, hne, Ne.symm hne]
    | cons d name =>
      have hih :=
        ih (fun hm => h (List.mem_cons_of_mem d hm)) fun hm => h' (List.mem_cons_of_mem c hm)
      rw [List.cons_append, envIs, if_neg hne, Bool.and_eq_true, decide_eq_true_eq,
        hih, List.cons.injEq]

/-- What is an entry, and that no name has two. -/
structure Env.Tidy (e : Env) : Prop where
  /-- An entry is a name and a value. -/
  form : ∀ i < e.n, ∃ name value, e.rows i = name ++ equals :: value ∧ name ≠ [] ∧ equals ∉ name
  /-- No name has two entries. -/
  inj : ∀ i < e.n, ∀ j < e.n, nameOf (e.rows i) = nameOf (e.rows j) → i = j

/-- There is this entry. -/
def Env.Binds (e : Env) (name value : Str) : Prop := ∃ i < e.n, e.rows i = name ++ equals :: value

namespace Env.Tidy

theorem envIs_row (h : e.Tidy) (hi : i < e.n) (hname : equals ∉ name) :
    envIs (e.rows i) name = true ↔ nameOf (e.rows i) = name := by
  obtain ⟨name', value, hrow, -, hname'⟩ := h.form i hi
  rw [hrow, envIs_iff hname' hname, nameOf_entry hname']

theorem slotOf_eq_none (h : e.Tidy) (hname : equals ∉ name) :
    e.slotOf name = none ↔ ∀ i < e.n, nameOf (e.rows i) ≠ name := by
  rw [slotOf, List.find?_eq_none]
  refine ⟨fun hn i hi he => hn i (List.mem_range.mpr hi) ((h.envIs_row hi hname).mpr he), ?_⟩
  intro hn i hi he
  have hi := List.mem_range.mp hi
  exact hn i hi ((h.envIs_row hi hname).mp he)

theorem slotOf_eq_some (h : e.Tidy) (hname : equals ∉ name) :
    e.slotOf name = some i ↔ i < e.n ∧ nameOf (e.rows i) = name := by
  have hfound : ∀ {j}, e.slotOf name = some j → j < e.n ∧ nameOf (e.rows j) = name := by
    intro j hj
    rw [slotOf] at hj
    have hlt := List.mem_range.mp (List.mem_of_find?_eq_some hj)
    have his := List.find?_some hj
    exact ⟨hlt, (h.envIs_row hlt hname).mp his⟩
  refine ⟨hfound, fun ⟨hi, hrow⟩ => ?_⟩
  cases hj : e.slotOf name with
  | none => exact absurd hrow ((h.slotOf_eq_none hname).mp hj i hi)
  | some j =>
    obtain ⟨hlt, hname'⟩ := hfound hj
    rw [h.inj j hlt i hi (hname'.trans hrow.symm)]

theorem get_iff (h : e.Tidy) (hname : equals ∉ name) : e.get name = some value ↔
    e.Binds name value := by
  rw [get, Option.map_eq_some_iff]
  constructor
  · rintro ⟨i, hi, rfl⟩
    obtain ⟨hlt, rfl⟩ := (h.slotOf_eq_some hname).mp hi
    obtain ⟨name', value, hrow, -, hname'⟩ := h.form i hlt
    refine ⟨i, hlt, ?_⟩
    rw [hrow, nameOf_entry hname', valueOf_entry hname']
  · rintro ⟨i, hi, hrow⟩
    refine ⟨i, (h.slotOf_eq_some hname).mpr ⟨hi, ?_⟩, ?_⟩
    · rw [hrow, nameOf_entry hname]
    · rw [hrow, valueOf_entry hname]

end Env.Tidy

/-! ## A call -/

/-- What an assignment makes of the entries. -/
structure Env.Assigned (e : Env) (name value : Str) (e' : Env) : Prop where
  /-- The entries are in order. -/
  tidy : e'.Tidy
  /-- The name has the value, and the others have what they had. -/
  binds : ∀ m w, equals ∉ m → (e'.Binds m w ↔ if m = name then w = value else e.Binds m w)

/-- What a removal makes of the entries. -/
structure Env.Removed (e : Env) (name : Str) (e' : Env) : Prop where
  /-- The entries are in order. -/
  tidy : e'.Tidy
  /-- The name has none, and the others have what they had. -/
  binds : ∀ m w, equals ∉ m → (e'.Binds m w ↔ m ≠ name ∧ e.Binds m w)

theorem entry_inj (h : equals ∉ name) (h' : equals ∉ name')
    (he : name ++ equals :: value = name' ++ equals :: value') : name = name' ∧ value = value' := by
  have hname := congrArg nameOf he
  have hvalue := congrArg valueOf he
  rw [nameOf_entry h, nameOf_entry h'] at hname
  rw [valueOf_entry h, valueOf_entry h'] at hvalue
  exact ⟨hname, hvalue⟩

namespace Env.Tidy

/-- One row of a table is written, which was no entry of another name, and is one now. -/
theorem assigned (h : e.Tidy) (hne : name ≠ []) (hname : equals ∉ name) {e' : Env}
    (hrows : e'.rows = Function.update e.rows i (name ++ equals :: value))
    (hn : ∀ j, j < e'.n ↔ j < e.n ∨ j = i) (honly : ∀ j < e.n, nameOf (e.rows j) = name ↔ j = i) :
    e.Assigned name value e' := by
  have hi : e'.rows i = name ++ equals :: value := by rw [hrows, Function.update_self]
  have hj : ∀ {j}, j ≠ i → e'.rows j = e.rows j :=
    fun hji => by rw [hrows, Function.update_of_ne hji]
  have hlt : ∀ {j}, j < e'.n → j ≠ i → j < e.n := fun hjn hji => ((hn _).mp hjn).resolve_right hji
  have hother : ∀ {j}, j < e'.n → j ≠ i → nameOf (e'.rows j) ≠ name := by
    intro j hjn hji
    rw [hj hji]
    exact fun he => hji ((honly j (hlt hjn hji)).mp he)
  refine ⟨⟨fun j hjn => ?_, fun j hjn k hkn he => ?_⟩, fun m w hm => ?_⟩
  · by_cases hji : j = i
    · exact ⟨name, value, by rw [hji, hi], hne, hname⟩
    · rw [hj hji]
      exact h.form j (hlt hjn hji)
  · by_cases hji : j = i
    · by_contra hjk
      rw [hji, hi, nameOf_entry hname] at he
      exact hother hkn (fun hki => hjk (hji.trans hki.symm)) he.symm
    · by_cases hki : k = i
      · rw [hki, hi, nameOf_entry hname] at he
        exact absurd he (hother hjn hji)
      · rw [hj hji, hj hki] at he
        exact h.inj j (hlt hjn hji) k (hlt hkn hki) he
  · split
    · next hmn =>
      rw [hmn]
      constructor
      · rintro ⟨j, hjn, hrow⟩
        by_cases hji : j = i
        · rw [hji, hi] at hrow
          exact (entry_inj hname hname hrow).2.symm
        · exact absurd (by rw [hrow, nameOf_entry hname]) (hother hjn hji)
      · rintro rfl
        exact ⟨i, (hn i).mpr (.inr rfl), hi⟩
    · next hmn =>
      constructor
      · rintro ⟨j, hjn, hrow⟩
        by_cases hji : j = i
        · rw [hji, hi] at hrow
          exact absurd (entry_inj hname hm hrow).1.symm hmn
        · exact ⟨j, hlt hjn hji, by rw [← hj hji, hrow]⟩
      · rintro ⟨j, hjn, hrow⟩
        have hji : j ≠ i := fun hji => hmn (by rw [← (honly j hjn).mpr hji, hrow, nameOf_entry hm])
        exact ⟨j, (hn j).mpr (.inl hjn), by rw [hj hji, hrow]⟩

/-- **An assignment that is accepted.** -/
theorem assign (h : e.Tidy) (hacc : e.Accepts (name, value)) (hname : equals ∉ name) :
    e.Assigned name value (e.assign name value) := by
  obtain ⟨hne, hroom, hlen⟩ := hacc
  rw [Env.assign, if_neg hne]
  cases hs : e.slotOf name with
  | some i =>
    obtain ⟨hi, hrow⟩ := (h.slotOf_eq_some hname).mp hs
    simp only [write, if_neg (not_le.mpr hlen)]
    refine h.assigned hne hname rfl (fun j => ⟨.inl, ?_⟩) fun j hj => ⟨fun he => ?_, ?_⟩
    · rintro (hj | rfl)
      · exact hj
      · exact hi
    · exact h.inj j hj i hi (he.trans hrow.symm)
    · rintro rfl
      exact hrow
  | none =>
    have hall := (h.slotOf_eq_none hname).mp hs
    simp only [write, if_neg (not_le.mpr hlen), if_neg (not_le.mpr (hroom hs))]
    exact h.assigned hne hname rfl (fun j => by simp only; omega) fun j hj =>
      iff_of_false (hall j hj) hj.ne

/-- The rows after a removal: those behind the slot have moved down. -/
theorem shifted (rows : ℕ → Str) (i m j : ℕ) :
    (List.range' (i + 1) m).foldl (fun rows k => Function.update rows (k - 1) (rows k)) rows j =
      if i ≤ j ∧ j < i + m then rows (j + 1) else rows j := by
  induction m generalizing j with
  | zero => rw [List.range'_zero, List.foldl_nil, if_neg (by omega)]
  | succ m ih =>
    rw [List.range'_1_concat, List.foldl_append, List.foldl_cons, List.foldl_nil,
      Function.update_apply, ih, ih]
    by_cases hj : j = i + m
    · rw [if_pos (by omega), if_neg (by omega), if_pos (by omega)]
      congr 1
      omega
    · rw [if_neg (by omega)]
      exact if_congr (by omega) rfl rfl

/-- **A removal.** -/
theorem unset (h : e.Tidy) (hname : equals ∉ name) : e.Removed name (e.unset name) := by
  rw [Env.unset]
  cases hs : e.slotOf name with
  | none =>
    have hall := (h.slotOf_eq_none hname).mp hs
    refine ⟨h, fun m w hm => ⟨fun hb => ⟨?_, hb⟩, And.right⟩⟩
    rintro rfl
    obtain ⟨j, hj, hrow⟩ := hb
    exact hall j hj (by rw [hrow, nameOf_entry hm])
  | some i =>
    obtain ⟨hi, hrow⟩ := (h.slotOf_eq_some hname).mp hs
    -- Where the row comes from that is at `j` now.
    let from_ j := if i ≤ j then j + 1 else j
    have hfrom : ∀ {j}, j < e.n - 1 → from_ j < e.n ∧ from_ j ≠ i := by
      intro j hj
      simp only [from_]
      split <;> omega
    have hrows : ∀ {j}, j < e.n - 1 → (List.range' (i + 1) (e.n - (i + 1))).foldl
        (fun rows k => Function.update rows (k - 1) (rows k)) e.rows j = e.rows (from_ j) := by
      intro j hj
      rw [shifted, ← apply_ite e.rows]
      congr 1
      exact if_congr (by omega) rfl rfl
    refine ⟨⟨fun j hj => ?_, fun j hj k hk he => ?_⟩, fun m w hm => ⟨?_, ?_⟩⟩
    · simp only [hrows hj]
      exact h.form _ (hfrom hj).1
    · simp only [hrows hj, hrows hk] at he
      have := h.inj _ (hfrom hj).1 _ (hfrom hk).1 he
      simp only [from_] at this
      split_ifs at this <;> omega
    · rintro ⟨j, hj, hb⟩
      simp only [hrows hj] at hb
      refine ⟨?_, from_ j, (hfrom hj).1, hb⟩
      rintro rfl
      exact (hfrom hj).2 (h.inj _ (hfrom hj).1 i hi (by rw [hb, nameOf_entry hm, hrow]))
    · rintro ⟨hmn, j, hj, hb⟩
      have hji : j ≠ i := by
        rintro rfl
        exact hmn (by rw [← hrow, hb, nameOf_entry hm])
      refine ⟨if i ≤ j then j - 1 else j, ?_, ?_⟩
      · split <;> (simp only; omega)
      · have hlt : (if i ≤ j then j - 1 else j) < e.n - 1 := by split <;> omega
        simp only [hrows hlt]
        rw [← hb]
        congr 1
        simp only [from_]
        split_ifs <;> omega

end Env.Tidy

/-- **An assignment that is refused**, and gets no row of its own. -/
theorem Env.assign_refused (hacc : ¬e.Accepts (name, value))
    (hclaim : ¬(name ≠ [] ∧ e.slotOf name = none ∧ e.n < kMaxEnv ∧
      kEnvMax ≤ name.length + value.length + 2)) : e.assign name value = e := by
  rw [assign]
  split
  · rfl
  · next hne =>
    cases hs : e.slotOf name with
    | some i =>
      have hlen : kEnvMax ≤ name.length + value.length + 2 := by
        by_contra hlen
        exact hacc ⟨hne, fun hn => absurd (hs.symm.trans hn) (Option.some_ne_none i),
          not_le.mp hlen⟩
      exact if_pos hlen
    | none =>
      refine if_pos (not_lt.mp fun hroom => ?_)
      by_cases hlen : kEnvMax ≤ name.length + value.length + 2
      · exact hclaim ⟨hne, hs, hroom, hlen⟩
      · exact hacc ⟨hne, fun _ => hroom, not_le.mp hlen⟩

/-- What `env_set` and `env_assign` do, once the name and the value are told apart. -/
theorem EnvOp.apply_given (hop : ∀ name, op ≠ unset name) (e : Env) :
    op.apply e = match op.given with
      | some p => e.assign p.1 p.2
      | none => e := by
  cases op with
  | unset name => exact absurd rfl (hop name)
  | assign name value => rfl
  | get name => rfl
  | set s =>
    rw [apply, Env.set, given]
    split
    · rfl
    · split <;> rfl

theorem EnvOp.safe_given (hop : ∀ name, op ≠ unset name) (h : op.Safe e) {p : Str × Str}
    (hp : op.given = some p) : (e.Accepts p → equals ∉ p.1) ∧
      ¬(p.1 ≠ [] ∧ e.slotOf p.1 = none ∧ e.n < kMaxEnv ∧
        kEnvMax ≤ p.1.length + p.2.length + 2) := by
  cases op with
  | unset name => exact absurd rfl (hop name)
  | get name => exact absurd hp nofun
  | set s => exact h p hp
  | assign name value => exact h p hp

/-- **A refused assignment** leaves all as it is. -/
theorem EnvOp.apply_refused (h : op.Safe e) (hop : ∀ name, op ≠ unset name)
    (hno : ∀ p ∈ op.given, ¬e.Accepts p) : op.apply e = e := by
  rw [apply_given hop]
  cases hp : op.given with
  | none => rfl
  | some p => exact Env.assign_refused (hno p hp) (safe_given hop h hp).2

theorem EnvOp.Assigns.ne_unset (h : op.Assigns) (name : Str) : op ≠ unset name := by
  rintro rfl
  exact h

/-! ## Runs -/

/-- What each call keeps. -/
structure EnvRun.Inv (r : EnvRun) : Prop where
  tidy : r.env.Tidy
  last : ∀ name value, equals ∉ name → (r.env.Binds name value ↔ r.last name = some value)

theorem EnvRun.last_cons (env : Env) (log : List (Str × Option Str))
    (name m : Str) (v : Option Str) :
    EnvRun.last ⟨env, (name, v) :: log⟩ m = if name = m then v else EnvRun.last ⟨env, log⟩ m := by
  rw [last, List.find?_cons]
  by_cases h : name = m
  · simp [h]
  · simp [h, last]

theorem EnvOp.logged_given (hop : ∀ name, op ≠ unset name) (e : Env) :
    op.logged e = (op.given.toList.filter fun p => e.Accepts p).map fun p => (p.1, some p.2) := by
  cases op with
  | unset name => exact absurd rfl (hop name)
  | _ => rfl

/-- **A call keeps this.** -/
theorem EnvRun.Inv.step (h : r.Inv) (safe : op.Safe r.env) : (r.step op).Inv := by
  by_cases hop : ∃ name, op = .unset name
  · obtain ⟨name, rfl⟩ := hop
    have hlast : ∀ {e : Env} {m : Str}, EnvRun.last ⟨e, (name, none) :: r.log⟩ m =
        if name = m then none else r.last m := fun {e m} => last_cons e r.log name m none
    by_cases hname : equals ∈ name
    · have hsame : r.env.unset name = r.env := by rw [Env.unset, safe hname]
      refine ⟨?_, fun m w hm => ?_⟩
      · change (r.env.unset name).Tidy
        rw [hsame]
        exact h.tidy
      · change (r.env.unset name).Binds m w ↔ EnvRun.last ⟨_, (name, none) :: r.log⟩ m = some w
        rw [hsame, hlast, if_neg (show name ≠ m from fun he => hm (he ▸ hname))]
        exact h.last m w hm
    · have hremoved := h.tidy.unset hname
      refine ⟨hremoved.tidy, fun m w hm => ?_⟩
      change (r.env.unset name).Binds m w ↔ EnvRun.last ⟨_, (name, none) :: r.log⟩ m = some w
      rw [hremoved.binds m w hm, hlast, h.last m w hm]
      split
      · next he => exact iff_of_false (fun hb => hb.1 he.symm) (Option.some_ne_none w).symm
      · next he => exact and_iff_right fun hmn => he hmn.symm
  · have hop : ∀ name, op ≠ .unset name := fun name he => hop ⟨name, he⟩
    rw [EnvRun.step, op.logged_given hop]
    by_cases hacc : ∃ p, op.given = some p ∧ r.env.Accepts p
    · obtain ⟨⟨name, value⟩, hp, hacc⟩ := hacc
      have hname := (EnvOp.safe_given hop safe hp).1 hacc
      have hassigned := h.tidy.assign hacc hname
      rw [EnvOp.apply_given hop, hp]
      simp only [Option.toList_some, List.filter_singleton, decide_eq_true hacc]
      refine ⟨hassigned.tidy, fun m w hm => ?_⟩
      change (r.env.assign name value).Binds m w ↔ EnvRun.last ⟨_,
        (name, some value) :: r.log⟩ m = some w
      rw [hassigned.binds m w hm, last_cons]
      by_cases he : m = name
      · rw [if_pos he, if_pos he.symm, Option.some.injEq, eq_comm]
      · rw [if_neg he, if_neg fun hn => he hn.symm]
        exact h.last m w hm
    · have hnone : (op.given.toList.filter fun p => r.env.Accepts p) = [] := by
        rw [List.filter_eq_nil_iff]
        intro p hp hdec
        exact hacc ⟨p, Option.mem_toList.mp hp, of_decide_eq_true hdec⟩
      rw [hnone, EnvOp.apply_refused safe hop fun p hp ha => hacc ⟨p, hp, ha⟩]
      exact h

theorem EnvRun.Inv.isMap (h : r.Inv) : r.IsMap where
  get name hname := Option.ext fun value => (h.tidy.get_iff hname).trans (h.last name value hname)
  names := by
    rw [Env.vector, List.map_map]
    refine List.Nodup.map_on (fun i hi j hj he => ?_) List.nodup_range
    exact h.tidy.inj i (List.mem_range.mp hi) j (List.mem_range.mp hj) he
  form entry hentry := by
    obtain ⟨i, hi, rfl⟩ := List.mem_map.mp hentry
    exact h.tidy.form i (List.mem_range.mp hi)

/-- Nothing was ever stored under a name with a `=`. -/
structure EnvRun.Plain (r : EnvRun) : Prop where
  log : ∀ p ∈ r.log, equals ∈ p.1 → p.2 = none

theorem EnvRun.Plain.last (h : r.Plain) (hname : equals ∈ name) : r.last name = none := by
  rw [EnvRun.last]
  cases hp : r.log.find? fun p => p.1 = name with
  | none => rfl
  | some p =>
    have hpn : p.1 = name := by simpa using List.find?_some hp
    exact h.log p (List.mem_of_find?_eq_some hp) (hpn ▸ hname)

theorem EnvRun.Plain.step (h : r.Plain) (safe : op.Safe r.env) : (r.step op).Plain := by
  refine ⟨fun p hp hname => ?_⟩
  obtain hp | hp := List.mem_append.mp hp
  · by_cases hop : ∃ name, op = .unset name
    · obtain ⟨name, rfl⟩ := hop
      rw [List.mem_singleton.mp hp]
    · have hop : ∀ name, op ≠ .unset name := fun name he => hop ⟨name, he⟩
      rw [EnvOp.logged_given hop] at hp
      obtain ⟨q, hq, rfl⟩ := List.mem_map.mp hp
      obtain ⟨hq, hacc⟩ := List.mem_filter.mp hq
      have hno := (EnvOp.safe_given hop safe (Option.mem_toList.mp hq)).1 (of_decide_eq_true hacc)
      exact absurd hname hno
  · exact h.log p hp hname

/-- **What is looked for is found.** -/
theorem EnvRun.Inv.finds (h : r.Inv) (hplain : r.Plain) (safe : op.Safe r.env) : op.Finds r := by
  cases op with
  | get name =>
    by_cases hname : equals ∈ name
    · have hnone : r.env.get name = none := by rw [Env.get, safe hname, Option.map_none]
      exact hnone.trans (hplain.last hname).symm
    · exact h.isMap.get name hname
  | _ => trivial

theorem EnvRun.Inv.correct (h : r.Inv) (hplain : r.Plain) {ops : List EnvOp} (safe : r.Safe ops) :
    r.Correct ops := by
  induction ops generalizing r with
  | nil => exact h.isMap
  | cons op ops ih =>
    refine ⟨h.isMap, h.finds hplain safe.1, fun hop => ?_,
      ih (h.step safe.1) (hplain.step safe.1) safe.2⟩
    exact EnvOp.apply_refused safe.1 hop.1.ne_unset hop.2

theorem EnvRun.inv_init : EnvRun.Inv ⟨.init, []⟩ where
  tidy := ⟨nofun, nofun⟩
  last _ _ _ := iff_of_false (fun ⟨i, hi, _⟩ => Nat.not_lt_zero i hi) nofun

/-- **The environment is a finite map**, as long as each call is safe. -/
theorem EnvRun.correct_of_safe (ops : List EnvOp) (safe : EnvRun.Safe ⟨.init, []⟩ ops) :
    EnvRun.Correct ⟨.init, []⟩ ops := inv_init.correct ⟨nofun⟩ safe

/-- The theorem for a name that is set, looked for and removed. -/
theorem EnvRun.correct_set_unset :
    EnvRun.Correct ⟨.init, []⟩ [.set [65, 61, 49], .get [65], .unset [65]] := by
  have hno : equals ∉ ([65] : Str) := by decide
  refine correct_of_safe _ ⟨fun p hp => ?_, fun h => absurd h hno, fun h => absurd h hno, trivial⟩
  obtain rfl := Option.some.inj hp
  decide

/-- A long value is refused, and there is an entry more. -/
theorem EnvRun.long_value :
    ¬EnvRun.Correct ⟨.init, []⟩ [.set (65 :: 61 :: List.replicate 125 120)] := by
  intro h
  obtain ⟨name, value, hentry, -⟩ := h.2.2.2.form [] (by decide +kernel)
  cases name <;> exact absurd hentry nofun

end Aurisys.Sh
