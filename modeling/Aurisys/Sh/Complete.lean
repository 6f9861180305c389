import Aurisys.Sh.Job

/-!
# Completion in the shell

The tab key completes the first word to a command of `PATH`, and any other word to a file. A command
is completed as far as the names that were found have it in common.

`complete_command` finds out how much that is while it collects the names. Each name is compared
with the first one, and what they have in common takes the place of what the names before had. So
only the first name and the last one count.

## Main definitions

* `Completion` — what the tab key does to the line
* `commonOf`, `scanDir`, `collect`, `completeCommand`, `completePath`, `tabComplete`
* `IsCommon` — the longest common prefix of some names

## Main results

* `prefix_take_commonOf`
* `completeCommand_isCommon_iff`
-/

namespace Aurisys

namespace Sh

def colon : UInt8 := 58

/-- A `vfs_dirent`: the name, and whether it is that of a directory. -/
structure Dirent where
  name : Str
  isDir : Bool
  short : name.length < 64
  proper : 0 ∉ name

/-- What the shell sees of the system when it completes a word: `PATH`, and the directories that can
be opened. -/
structure View where
  path : Option Str
  dir : Str → Option (List Dirent)

/-- What the tab key does to the line. -/
inductive Completion
  | none
  /-- The bytes from `s` to `e` are replaced. -/
  | splice (s e : ℕ) (ins : Str)
  /-- The names are shown, if they were not for these `n` bytes of the line. -/
  | list (n : ℕ) (names : List Str)
  deriving DecidableEq

/-! ## Commands -/

/-- `common_of`. -/
def commonOf : Str → Str → ℕ → ℕ
  | x :: a, y :: b, upto + 1 => if x = y then commonOf a b upto + 1 else 0
  | _, _, _ => 0

/-- `names` and `common_len`. -/
structure Found where
  names : List Str
  common : ℕ

/-- The loop over a directory: `word` are the first bytes of the line. -/
def scanDir (word : Str) : List Dirent → Found → Found
  | [], f => f
  | e :: es, f =>
    if 64 ≤ f.names.length then f
    else if isDot e.name then scanDir word es f
    else
      let disk := e.name.take 63
      if word <+: disk then
        scanDir word es ⟨f.names ++ [disk],
          match f.names with
          | [] => disk.length
          | first :: _ => commonOf first disk disk.length⟩
      else scanDir word es f

/-- A directory of `PATH`: 127 bytes at most. -/
def pathDir (p : Str) : Str := (p.takeWhile (· ≠ colon)).take 127

/-- What is behind it. -/
def pathRest (p : Str) : Str :=
  let rest := p.drop (pathDir p).length
  if rest.head? = some colon then rest.tail else rest

/-- The loop over `PATH`, which takes a byte at least in each turn. -/
def collect (v : View) (word : Str) : ℕ → Str → Found → Found
  | 0, _, f => f
  | fuel + 1, p, f =>
    if p = [] ∨ 64 ≤ f.names.length then f
    else if pathDir p = [] then collect v word fuel (pathRest p) f
    else
      match v.dir (pathDir p) with
      | none => collect v word fuel (pathRest p) f
      | some es => collect v word fuel (pathRest p) (scanDir word es f)

/-- The commands that begin with some bytes. -/
def commands (v : View) (word : Str) : Found :=
  let p := v.path.getD [47, 98, 105, 110]
  collect v word p.length p ⟨[], 0⟩

/-- `complete_command`. -/
def completeCommand (v : View) (e : Editor) (fw : ℕ) : Completion :=
  let f := commands v (e.text.take fw)
  match f.names with
  | [] => .none
  | first :: more =>
    if fw < f.common then .splice 0 fw (first.take f.common)
    else if more = [] then .none
    else .list fw f.names

/-! ## Files -/

/-- The entries of a directory that begin with some bytes, 32 at most. -/
def files (pat : Str) (es : List Dirent) : List Dirent :=
  (es.filter fun e => !isDot e.name && pat.isPrefixOf e.name).take 32

/-- `complete_path`. The names are cut to 127 bytes, and what is spliced to 254. -/
def completePath (v : View) (e : Editor) (s t : ℕ) : Completion :=
  let word := (e.text.take t).drop s
  let dir := globDir word
  if 127 < dir.length then .none
  else
    match v.dir (if dir = [] then [46] else dir) with
    | none => .none
    | some es =>
      match files (globPattern word) es with
      | [] => .none
      | [d] => .splice s t ((dir ++ d.name.take 127).take 254)
      | names =>
        .list (t - s) (names.map fun d => d.name.take 127 ++ [if d.isDir then 47 else blank])

/-- Where the word begins that the cursor is in. -/
def wordBegin (e : Editor) : ℕ := ((e.text.take e.pos).rdropWhile (· ≠ blank)).length

/-- Where a word ends. -/
def wordEnd (e : Editor) (s : ℕ) : ℕ := s + ((e.text.drop s).takeWhile (· ≠ blank)).length

/-- `tab_complete`. -/
def tabComplete (v : View) (e : Editor) : Completion :=
  if e.pos ≤ wordEnd e 0 then completeCommand v e (wordEnd e 0)
  else if wordEnd e (wordBegin e) = wordBegin e then .none
  else completePath v e (wordBegin e) (wordEnd e (wordBegin e))

/-! ## What names have in common -/

variable {v : View} {e : Editor} {fw upto fuel : ℕ} {a b q p word text first name : Str}
  {names : List Str}
  {f : Found}

/-- **The longest common prefix** of some names. -/
structure IsCommon (text : Str) (names : List Str) : Prop where
  /-- All names begin with it. -/
  common : ∀ name ∈ names, text <+: name
  /-- No longer text is like that. -/
  longest : ∀ q, (∀ name ∈ names, q <+: name) → q <+: text

/-- No name has less in common with the first one than the last has. -/
def LastLeast (names : List Str) : Prop :=
  ∀ first last, names.head? = some first → names.getLast? = some last →
    ∀ name ∈ names, commonOf first last last.length ≤ commonOf first name name.length

/-- **`common_of`** counts what two names have in common. -/
theorem prefix_take_commonOf : q <+: a.take (commonOf a b upto) ↔ q <+: a ∧ q <+: b ∧
    q.length ≤ upto := by
  induction a generalizing b q upto with
  | nil =>
    rw [List.take_nil, List.prefix_nil]
    refine ⟨?_, And.left⟩
    rintro rfl
    exact ⟨rfl, List.nil_prefix, Nat.zero_le _⟩
  | cons x a ih =>
    cases q with
    | nil => exact iff_of_true List.nil_prefix ⟨List.nil_prefix, List.nil_prefix, Nat.zero_le _⟩
    | cons z q =>
      match b, upto with
      | [], upto =>
        refine iff_of_false (fun h => ?_) fun h => absurd (List.prefix_nil.mp h.2.1)
          (List.cons_ne_nil z q)
        exact absurd (List.prefix_nil.mp h) (List.cons_ne_nil z q)
      | y :: b, 0 =>
        refine iff_of_false (fun h => ?_) fun h => absurd h.2.2 (Nat.not_succ_le_zero _)
        exact absurd (List.prefix_nil.mp h) (List.cons_ne_nil z q)
      | y :: b, upto + 1 =>
        rw [commonOf]
        by_cases hxy : x = y
        · rw [if_pos hxy, List.take_succ_cons, List.cons_prefix_cons, List.cons_prefix_cons,
            List.cons_prefix_cons, ih, hxy, List.length_cons, Nat.succ_le_succ_iff]
          tauto
        · rw [if_neg hxy, List.take_zero, List.prefix_nil, List.cons_prefix_cons,
            List.cons_prefix_cons]
          refine iff_of_false (List.cons_ne_nil z q) fun h => hxy ?_
          rw [← h.1.1, h.2.1.1]

theorem commonOf_le (a b : Str) (upto : ℕ) : commonOf a b upto ≤ a.length := by
  induction a generalizing b upto with
  | nil => exact Nat.zero_le _
  | cons x a ih =>
    match b, upto with
    | [], upto => exact Nat.zero_le _
    | y :: b, 0 => exact Nat.zero_le _
    | y :: b, upto + 1 =>
      rw [commonOf, List.length_cons]
      split
      · exact Nat.succ_le_succ (ih b upto)
      · exact Nat.zero_le _

theorem take_commonOf_begins (a b : Str) : a.take (commonOf a b b.length) <+: b :=
  (prefix_take_commonOf.mp (List.prefix_refl _)).2.1

/-- What a name has in common with itself. -/
theorem commonOf_self (a : Str) : commonOf a a a.length = a.length := by
  have h : a <+: a.take (commonOf a a a.length) :=
    prefix_take_commonOf.mpr ⟨List.prefix_refl a, List.prefix_refl a, le_rfl⟩
  have hlen := h.length_le
  rw [List.length_take] at hlen
  exact le_antisymm (commonOf_le a a a.length) (by omega)

/-- A beginning of the first name is a beginning of another one if that has as much in common with
it. -/
theorem take_prefix_iff {n : ℕ} (hn : n ≤ first.length) :
    first.take n <+: name ↔ n ≤ commonOf first name name.length := by
  have hlen : (first.take n).length = n := List.length_take_of_le hn
  constructor
  · intro h
    have hboth := prefix_take_commonOf.mpr ⟨List.take_prefix n first, h, h.length_le⟩
    have := hboth.length_le
    rw [hlen, List.length_take] at this
    omega
  · intro h
    exact (List.take_prefix_take_left h).trans (take_commonOf_begins first name)

/-! ## The loops -/

/-- The length that is kept is what the first and the last name have in common. -/
def Found.Kept (f : Found) : Prop :=
  ∀ first last, f.names.head? = some first → f.names.getLast? = some last →
    f.common = commonOf first last last.length

theorem Found.Kept.scanDir (h : f.Kept) (word : Str) (es : List Dirent) :
    (scanDir word es f).Kept := by
  induction es generalizing f with
  | nil => exact h
  | cons e es ih =>
    rw [Sh.scanDir]
    dsimp only
    split_ifs
    · exact h
    · exact ih h
    · refine ih fun first last hfirst hlast => ?_
      rw [List.getLast?_concat] at hlast
      obtain rfl := Option.some.inj hlast
      cases hn : f.names with
      | nil =>
        rw [hn] at hfirst
        obtain rfl := Option.some.inj hfirst
        exact (commonOf_self _).symm
      | cons one more =>
        rw [hn] at hfirst
        obtain rfl := Option.some.inj hfirst
        rfl
    · exact ih h

theorem Found.Kept.collect (h : f.Kept) (v : View) (word : Str) (fuel : ℕ) (p : Str) :
    (collect v word fuel p f).Kept := by
  induction fuel generalizing p f with
  | zero => exact h
  | succ fuel ih =>
    rw [Sh.collect]
    split
    · exact h
    split
    · exact ih h _
    · cases v.dir (pathDir p) with
      | none => exact ih h _
      | some es => exact ih (h.scanDir word es) _

theorem kept_commands (v : View) (word : Str) : (commands v word).Kept := by
  have hnone : Found.Kept ⟨[], 0⟩ := fun first last h => absurd h (Option.some_ne_none first).symm
  exact hnone.collect v word _ _

/-- **When a completed command is what the names have in common.** -/
theorem completeCommand_isCommon_iff (v : View) (e : Editor) (fw : ℕ) (text : Str)
    (h : completeCommand v e fw = .splice 0 fw text) :
    IsCommon text (commands v (e.text.take fw)).names ↔
    LastLeast (commands v (e.text.take fw)).names := by
  have hkept := kept_commands v (e.text.take fw)
  rw [completeCommand] at h
  generalize commands v (e.text.take fw) = f at h hkept
  cases hn : f.names with
  | nil =>
    rw [hn] at h
    exact absurd h nofun
  | cons first more =>
    obtain ⟨last, hlast⟩ : ∃ last, f.names.getLast? = some last := by
      rw [hn]
      exact ⟨_, List.getLast?_eq_some_getLast (List.cons_ne_nil first more)⟩
    have hcommon := hkept first last (by rw [hn]; rfl) hlast
    have htext : text = first.take (commonOf first last last.length) := by
      simp only [hn] at h
      split_ifs at h
      · rw [← hcommon]
        exact ((Completion.splice.inj h).2.2).symm
    rw [hn] at hlast
    have hle := commonOf_le first last last.length
    have hleast : LastLeast (first :: more) ↔ ∀ name ∈ first :: more, text <+: name := by
      rw [htext]
      constructor
      · exact fun hl name hname => (take_prefix_iff hle).mpr (hl first last rfl hlast name hname)
      · intro hall first' last' hfirst' hlast' name hname
        obtain rfl := Option.some.inj hfirst'
        obtain rfl := Option.some.inj (hlast.symm.trans hlast')
        exact (take_prefix_iff hle).mp (hall name hname)
    rw [hleast]
    refine ⟨IsCommon.common, fun hall => ⟨hall, fun q hq => ?_⟩⟩
    have hlastmem := List.mem_of_getLast? hlast
    rw [htext]
    exact prefix_take_commonOf.mpr ⟨hq first List.mem_cons_self, hq last hlastmem,
      (hq last hlastmem).length_le⟩

/-! ## Some commands -/

/-- One directory with these names in it, which are short enough. -/
def oneDir (names : List Str) : View where
  path := none
  dir _ := some (names.filterMap fun name =>
    if h : name.length < 64 ∧ 0 ∉ name then some ⟨name, false, h.1, h.2⟩ else none)

/-- A directory with `abc`, `ad` and `abe`. -/
def unluckyDir : View := oneDir [[97, 98, 99], [97, 100], [97, 98, 101]]

/-- The line `a`, and the cursor behind it. -/
def lineA : Editor := (Editor.start fun _ => 0).insertChar 97

/-- The theorem for `abc` and `abd`. -/
theorem completeCommand_abc_abd :
    IsCommon [97, 98] (commands (oneDir [[97, 98, 99], [97, 98, 100]]) (lineA.text.take 1)).names ↔
      LastLeast (commands (oneDir [[97, 98, 99], [97, 98, 100]]) (lineA.text.take 1)).names :=
  completeCommand_isCommon_iff _ _ _ _ (by decide)

/-- The second name does not begin with the `ab` that is inserted. -/
theorem completeCommand_unlucky : completeCommand unluckyDir lineA 1 = .splice 0 1 [97, 98] ∧
    ¬IsCommon [97, 98] (commands unluckyDir (lineA.text.take 1)).names := by
  refine ⟨by decide, fun h => ?_⟩
  exact absurd (h.common [97, 100] (by decide)) (by decide)

end Sh

end Aurisys
