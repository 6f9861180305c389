import Aurisys.Fs.Path
import Aurisys.Lib.Wildcard

/-!
# Matching names

`glob_match` goes through the pattern and the name together, and calls itself for each place where
what a `*` stands for may end. A bracket expression is read twice: `class_end` looks for its end,
and `class_match` goes through what is in it. A bracket that is not closed is a character like any
other.

## Main definitions

* `classEnd`, `classMatch`, `hasGlob`, `globMatch` — the code
* `Bracket`, `Denotes` — how a pattern is read
* `ranges` — what is in a bracket expression

## Main results

* `Bracket.classEnd`, `Bracket.classMatch` — what the code makes of a bracket expression
* `exists_denotes` — any pattern can be read
* `globMatch_iff`, `globMatch_decides`
-/

namespace Aurisys

namespace Sh

def star : UInt8 := 42

def question : UInt8 := 63

def bracketOpen : UInt8 := 91

def bracketClose : UInt8 := 93

def bang : UInt8 := 33

def caret : UInt8 := 94

def dash : UInt8 := 45

/-! ## The code -/

/-- The byte at `p + i`. The string ends with a zero. -/
def charAt (p : Str) (i : ℕ) : UInt8 := p.getD i 0

/-- Whether a class is negated. -/
def negated (p : Str) : Bool := charAt p 1 = bang ∨ charAt p 1 = caret

/-- `class_end`: where the bracket that closes the one at `p` is. -/
def classEnd (p : Str) : Option ℕ :=
  let i := if negated p then 2 else 1
  let i := if charAt p i = bracketClose then i + 1 else i
  ((p.drop i).findIdx? (· = bracketClose)).map (i + ·)

/-- The loop of `class_match`. The end is `k` bytes behind `p`. -/
def classScan (c : UInt8) : ℕ → Str → Bool → Bool
  | 0, _, hit => hit
  | k + 1, p, hit =>
    if charAt p 1 = dash ∧ 2 < k + 1 then
      classScan c (k - 2) (p.drop 3) (if charAt p 0 ≤ c ∧ c ≤ charAt p 2 then true else hit)
    else classScan c k (p.drop 1) (if charAt p 0 = c then true else hit)
termination_by k => k
decreasing_by
  · exact Nat.lt_succ_of_le (Nat.sub_le k 2)
  · exact Nat.lt_succ_self k

/-- `class_match`: what is behind the class, and whether it has the character. -/
def classMatch (p : Str) (c : UInt8) : Option (Str × Bool) :=
  (classEnd p).map fun e =>
    let neg := negated p
    let i := if neg then 2 else 1
    let hit := classScan c (e - i) (p.drop i) false
    (p.drop (e + 1), if neg then !hit else hit)

/-- `has_glob`. -/
def hasGlob : Str → Bool
  | [] => false
  | a :: p =>
    a = star || a = question || (a = bracketOpen && (classEnd (a :: p)).isSome) || hasGlob p

theorem length_classMatch {p q : Str} {c : UInt8} {hit : Bool} (h : classMatch p c = some (q, hit))
    (hne : p ≠ []) : q.length < p.length := by
  obtain ⟨e, -, he⟩ := Option.map_eq_some_iff.mp h
  rw [← (Prod.mk.inj he).1, List.length_drop]
  have := List.length_pos_iff.mpr hne
  omega

/-- `glob_match`. -/
def globMatch : Str → Str → Bool
  | [], s => s.isEmpty
  | a :: pat, s =>
    if a = star then pat.isEmpty || s.tails.any fun t => globMatch pat t
    else
      match s with
      | [] => false
      | c :: s =>
        match _h : if a = bracketOpen then classMatch (a :: pat) c else none with
        | some (rest, hit) => if hit then globMatch rest s else false
        | none => if a ≠ question ∧ a ≠ c then false else globMatch pat s
termination_by pat => pat.length
decreasing_by
  · simp
  · split at _h
    · exact length_classMatch _h (List.cons_ne_nil _ _)
    · exact absurd _h (by simp)
  · simp

/-! ## How a pattern is read -/

/-- **A bracket expression**: a bracket, a mark if it is negated, what is in it, and a bracket that
closes it. A closing bracket that comes first is in it. -/
structure Bracket (p : Str) (neg : Bool) (body rest : Str) : Prop where
  text : ∃ mark : Str, p = bracketOpen :: (mark ++ body ++ bracketClose :: rest) ∧
    if neg then mark = [bang] ∨ mark = [caret]
    else mark = [] ∧ body.head? ≠ some bang ∧ body.head? ≠ some caret
  ne_nil : body ≠ []
  inside : bracketClose ∉ body.tail

/-- What is in a bracket expression: the characters, and the ranges. -/
def ranges : Str → List (UInt8 × UInt8)
  | a :: m :: b :: body =>
    if m = dash then (a, b) :: ranges body else (a, a) :: ranges (m :: b :: body)
  | a :: body => (a, a) :: ranges body
  | [] => []

/-- The character is in it. -/
def Holds (body : Str) (c : UInt8) : Prop := ∃ r ∈ ranges body, r.1 ≤ c ∧ c ≤ r.2

/-- **How a pattern is read.** -/
inductive Denotes : Str → List (Piece UInt8) → Prop
  | nil : Denotes [] []
  | star {p ps} (h : Denotes p ps) : Denotes (star :: p) (.run :: ps)
  | question {p ps} (h : Denotes p ps) : Denotes (question :: p) (.one (fun _ => True) :: ps)
  | bracket {p neg body rest ps} (hb : Bracket p neg body rest) (h : Denotes rest ps) :
    Denotes p (.one (fun c => if neg then ¬Holds body c else Holds body c) :: ps)
  | char {c p ps} (hstar : c ≠ star) (hquestion : c ≠ question)
    (hb : ∀ neg body rest, ¬Bracket (c :: p) neg body rest) (h : Denotes p ps) :
    Denotes (c :: p) (.one (· = c) :: ps)

open Wildcard

variable {p q body rest s : Str} {neg hit : Bool} {a b c : UInt8} {e i k : ℕ}
  {ps : List (Piece UInt8)}

instance (body : Str) (c : UInt8) : Decidable (Holds body c) :=
  inferInstanceAs (Decidable (∃ r ∈ ranges body, r.1 ≤ c ∧ c ≤ r.2))

/-! ## The end of a class -/

/-- The search stops at the first bracket. -/
theorem findIdx?_close (h : bracketClose ∉ body) :
    (body ++ bracketClose :: rest).findIdx? (· = bracketClose) = some body.length := by
  induction body with
  | nil => rw [List.nil_append, List.findIdx?_cons, decide_eq_true rfl, if_pos rfl]; rfl
  | cons a body ih =>
    rw [List.mem_cons, not_or] at h
    rw [List.cons_append, List.findIdx?_cons, decide_eq_false (Ne.symm h.1),
      if_neg Bool.false_ne_true, ih h.2]
    rfl

theorem of_findIdx?_close (h : q.findIdx? (· = bracketClose) = some i) :
    ∃ body rest, q = body ++ bracketClose :: rest ∧ bracketClose ∉ body ∧ i = body.length := by
  induction q generalizing i with
  | nil => exact absurd h (by simp)
  | cons a q ih =>
    rw [List.findIdx?_cons] at h
    by_cases ha : a = bracketClose
    · rw [decide_eq_true ha, if_pos rfl] at h
      exact ⟨[], q, by rw [ha]; rfl, List.not_mem_nil, (Option.some.inj h).symm⟩
    · rw [decide_eq_false ha, if_neg Bool.false_ne_true] at h
      obtain ⟨j, hj, rfl⟩ := Option.map_eq_some_iff.mp h
      obtain ⟨body, rest, rfl, hno, rfl⟩ := ih hj
      exact ⟨a :: body, rest, rfl, by rw [List.mem_cons, not_or]; exact ⟨Ne.symm ha, hno⟩, rfl⟩

theorem charAt_drop (p : Str) (i j : ℕ) : charAt (p.drop i) j = charAt p (i + j) := by
  simp only [charAt, List.getD_eq_getElem?_getD, List.getElem?_drop]

/-- The mark of a class is in front of what is in it. -/
theorem Bracket.split (h : Bracket p neg body rest) : negated p = neg ∧
    p.drop (if neg then 2 else 1) = body ++ bracketClose :: rest ∧ p.head? = some bracketOpen := by
  obtain ⟨⟨mark, rfl, hmark⟩, hne, -⟩ := h
  cases neg with
  | true =>
    rcases hmark with rfl | rfl
    · exact ⟨rfl, by simp, rfl⟩
    · exact ⟨rfl, by simp, rfl⟩
  | false =>
    obtain ⟨rfl, hbang, hcaret⟩ := hmark
    refine ⟨?_, by simp, rfl⟩
    cases body with
    | nil => exact absurd rfl hne
    | cons a body =>
      have ha : a ≠ bang ∧ a ≠ caret :=
        ⟨fun h => hbang (by rw [h]; rfl), fun h => hcaret (by rw [h]; rfl)⟩
      exact decide_eq_false fun h => h.elim ha.1 ha.2

/-- **`class_end`** finds the end of a bracket expression. -/
theorem Bracket.classEnd (h : Bracket p neg body rest) :
    classEnd p = some ((if neg then 2 else 1) + body.length) := by
  obtain ⟨hneg, hdrop, -⟩ := h.split
  have hfirst : charAt p (if neg then 2 else 1) = charAt (body ++ bracketClose :: rest) 0 := by
    rw [← hdrop, charAt_drop, Nat.add_zero]
  rw [Sh.classEnd, hneg]
  generalize (if neg then 2 else 1) = i at hdrop hfirst
  rw [hfirst]
  have hinside := h.inside
  cases body with
  | nil => exact absurd rfl h.ne_nil
  | cons a body =>
    have hbody : bracketClose ∉ body := hinside
    have htail : p.drop (i + 1) = body ++ bracketClose :: rest := by
      rw [← List.drop_drop, hdrop]
      rfl
    by_cases ha : a = bracketClose
    · have hat : charAt (a :: body ++ bracketClose :: rest) 0 = bracketClose := ha
      rw [if_pos hat, htail, findIdx?_close hbody, Option.map_some, List.length_cons, Nat.add_assoc,
        Nat.add_comm 1]
    · have hat : charAt (a :: body ++ bracketClose :: rest) 0 ≠ bracketClose := ha
      have hno : bracketClose ∉ a :: body := by
        rw [List.mem_cons, not_or]
        exact ⟨Ne.symm ha, hbody⟩
      rw [if_neg hat, hdrop, findIdx?_close hno, Option.map_some]

/-- What `class_end` finds is a bracket expression. -/
theorem bracket_of_classEnd (h : classEnd (bracketOpen :: q) = some e) :
    ∃ neg body rest, Bracket (bracketOpen :: q) neg body rest := by
  have hmark : ∃ mark : Str, bracketOpen :: q =
      bracketOpen :: (mark ++ (bracketOpen :: q).drop (if negated (bracketOpen :: q) then 2
        else 1)) ∧
      if negated (bracketOpen :: q) then mark = [bang] ∨ mark = [caret]
      else mark = [] ∧ charAt (bracketOpen :: q) 1 ≠ bang ∧
        charAt (bracketOpen :: q) 1 ≠ caret := by
    cases hneg : negated (bracketOpen :: q) with
    | true =>
      have hor : charAt (bracketOpen :: q) 1 = bang ∨ charAt (bracketOpen :: q) 1 = caret :=
        of_decide_eq_true hneg
      cases q with
      | nil => exact absurd hor (by decide)
      | cons m q =>
        exact ⟨[m], by simp, hor.imp (congrArg (fun x => [x])) (congrArg (fun x => [x]))⟩
    | false =>
      have hor := of_decide_eq_false hneg
      exact ⟨[], by simp, rfl, not_or.mp hor⟩
  obtain ⟨mark, htext, hcond⟩ := hmark
  rw [Sh.classEnd] at h
  have hsnd : negated (bracketOpen :: q) = false →
      charAt (bracketOpen :: q) (if negated (bracketOpen :: q) then 2
        else 1) = charAt (bracketOpen :: q) 1 := by
    intro h
    rw [h]
    rfl
  generalize hi : (if negated (bracketOpen :: q) then 2 else 1) = i at h htext hsnd
  -- What comes behind the mark begins with something that is in the class.
  have hbody : ∃ body rest, (bracketOpen :: q).drop i = body ++ bracketClose :: rest ∧ body ≠ [] ∧
      bracketClose ∉ body.tail ∧ body.head? = some (charAt (bracketOpen :: q) i) := by
    have hzero : charAt ((bracketOpen :: q).drop i) 0 = charAt (bracketOpen :: q) i :=
      charAt_drop _ _ _
    have hnext : (bracketOpen :: q).drop (i + 1) = ((bracketOpen :: q).drop i).tail := by
      rw [List.tail_drop]
    rw [← hzero]
    rw [← hzero] at h
    by_cases hat : charAt ((bracketOpen :: q).drop i) 0 = bracketClose
    · rw [if_pos hat, hnext] at h
      generalize (bracketOpen :: q).drop i = r at h hat
      obtain ⟨j, hj, -⟩ := Option.map_eq_some_iff.mp h
      obtain ⟨body, rest, hr, hno, -⟩ := of_findIdx?_close hj
      cases r with
      | nil => exact absurd hat (by decide)
      | cons a r =>
        have ha : a = bracketClose := hat
        have hr : r = body ++ bracketClose :: rest := hr
        exact ⟨a :: body, rest, by rw [hr]; rfl, List.cons_ne_nil _ _, hno, rfl⟩
    · rw [if_neg hat] at h
      generalize (bracketOpen :: q).drop i = r at h hat
      obtain ⟨j, hj, -⟩ := Option.map_eq_some_iff.mp h
      obtain ⟨body, rest, rfl, hno, -⟩ := of_findIdx?_close hj
      cases body with
      | nil => exact absurd rfl hat
      | cons a body =>
        exact ⟨a :: body, rest, rfl, List.cons_ne_nil _ _,
          fun h => hno (List.mem_cons_of_mem _ h), rfl⟩
  obtain ⟨body, rest, hdrop, hne, hinside, hhead⟩ := hbody
  rw [hdrop] at htext
  refine ⟨negated (bracketOpen :: q), body, rest, ⟨mark, by rw [List.append_assoc]; exact htext,
    ?_⟩, hne, hinside⟩
  cases hneg : negated (bracketOpen :: q) with
  | true =>
    rw [hneg] at hcond
    exact hcond
  | false =>
    rw [hneg] at hcond
    obtain ⟨hnil, hbang, hcaret⟩ := hcond
    rw [hhead, hsnd hneg]
    exact ⟨hnil, fun h => hbang (Option.some.inj h), fun h => hcaret (Option.some.inj h)⟩

/-! ## What is in a class -/

theorem holds_range : Holds (a :: dash :: b :: body) c ↔ a ≤ c ∧ c ≤ b ∨ Holds body c := by
  rw [Holds, ranges, if_pos rfl]
  simp [Holds]

theorem ranges_cons (h : ∀ b r, body ≠ dash :: b :: r) :
    ranges (a :: body) = (a, a) :: ranges body := by
  cases body with
  | nil => rfl
  | cons m body =>
    cases body with
    | nil => rfl
    | cons b body =>
      rw [ranges, if_neg]
      rintro rfl
      exact h b body rfl

theorem holds_cons (h : ∀ b r, body ≠ dash :: b :: r) :
    Holds (a :: body) c ↔ a = c ∨ Holds body c := by
  have hself : a ≤ c ∧ c ≤ a ↔ a = c :=
    ⟨fun h => UInt8.le_antisymm h.1 h.2, fun h => h ▸ ⟨UInt8.le_refl a, UInt8.le_refl a⟩⟩
  rw [Holds, ranges_cons h]
  simp [Holds, hself]

theorem decide_holds_range : decide (Holds (a :: dash :: b :: body) c) =
    (decide (a ≤ c ∧ c ≤ b) || decide (Holds body c)) := by
  rw [← Bool.decide_or]
  exact decide_eq_decide.mpr holds_range

theorem decide_holds_cons (h : ∀ b r, body ≠ dash :: b :: r) :
    decide (Holds (a :: body) c) = (decide (a = c) || decide (Holds body c)) := by
  rw [← Bool.decide_or]
  exact decide_eq_decide.mpr (holds_cons h)

/-- **The loop of `class_match`.** -/
theorem classScan_eq (c : UInt8) (k : ℕ) (p : Str) (hit : Bool) (hk : k ≤ p.length) :
    classScan c k p hit = (hit || decide (Holds (p.take k) c)) := by
  induction k using Nat.strong_induction_on generalizing p hit with
  | _ k ih =>
    cases k with
    | zero =>
      have hnone : ¬Holds (p.take 0) c := by
        rw [List.take_zero]
        rintro ⟨r, hr, -⟩
        exact absurd hr List.not_mem_nil
      rw [classScan, decide_eq_false hnone, Bool.or_false]
    | succ k =>
      cases p with
      | nil => exact absurd hk (by simp)
      | cons a p =>
        rw [List.length_cons] at hk
        rw [classScan]
        by_cases hrange : charAt (a :: p) 1 = dash ∧ 2 < k + 1
        · obtain ⟨hdash, hlt⟩ := hrange
          obtain ⟨m, b, p, rfl⟩ : ∃ m b r, p = m :: b :: r := by
            match p, (show 2 ≤ p.length by omega) with
            | m :: b :: r, _ => exact ⟨m, b, r, rfl⟩
          have hdash : m = dash := hdash
          obtain ⟨j, rfl⟩ : ∃ j, k = j + 2 := ⟨k - 2, by omega⟩
          subst hdash
          rw [if_pos ⟨rfl, hlt⟩, ih (j + 2 - 2) (by omega) _ _ (by simp at hk ⊢; omega)]
          have htake : (a :: dash :: b :: p).take (j + 2 + 1) = a :: dash :: b :: p.take j := rfl
          have hdrop : (a :: dash :: b :: p).drop 3 = p := rfl
          have h0 : charAt (a :: dash :: b :: p) 0 = a := rfl
          have h2 : charAt (a :: dash :: b :: p) 2 = b := rfl
          rw [htake, hdrop, h0, h2, Nat.add_sub_cancel, decide_holds_range]
          by_cases hin : a ≤ c ∧ c ≤ b
          · simp [hin]
          · simp [hin]
        · rw [if_neg hrange, ih k (Nat.lt_succ_self k) _ _ (by simp at hk ⊢; omega)]
          have htake : (a :: p).take (k + 1) = a :: p.take k := rfl
          have hdrop : (a :: p).drop 1 = p := rfl
          have h0 : charAt (a :: p) 0 = a := rfl
          have hno : ∀ b r, p.take k ≠ dash :: b :: r := by
            intro b r heq
            refine hrange ⟨?_, ?_⟩
            · cases p with
              | nil => exact absurd heq (by simp)
              | cons m p =>
                cases k with
                | zero => exact absurd heq (by simp)
                | succ k => exact (List.cons.inj heq).1
            · have := congrArg List.length heq
              rw [List.length_take] at this
              simp at this
              omega
          rw [htake, hdrop, h0, decide_holds_cons hno]
          by_cases hac : a = c
          · simp [hac]
          · simp [hac]

/-- **`class_match`** on a bracket expression. -/
theorem Bracket.classMatch (h : Bracket p neg body rest) (c : UInt8) :
    classMatch p c = some (rest, decide (if neg then ¬Holds body c else Holds body c)) := by
  obtain ⟨hneg, hdrop, -⟩ := h.split
  rw [Sh.classMatch, h.classEnd, Option.map_some, hneg]
  dsimp only
  generalize (if neg then 2 else 1) = i at hdrop
  have hrest : p.drop (i + body.length + 1) = rest := by
    rw [Nat.add_assoc, ← List.drop_drop, hdrop, List.drop_append, List.drop_of_length_le (by omega),
      List.nil_append, Nat.add_sub_cancel_left]
    rfl
  have htake : (p.drop i).take body.length = body := by rw [hdrop, List.take_left]
  rw [hrest, Nat.add_sub_cancel_left,
    classScan_eq c _ _ _ (by rw [hdrop, List.length_append]; omega), htake,
    Bool.false_or]
  cases neg with
  | true => simp
  | false => simp

theorem classMatch_none (h : ∀ neg body rest, ¬Bracket (bracketOpen :: q) neg body rest)
    (c : UInt8) :
    Sh.classMatch (bracketOpen :: q) c = none := by
  rw [Sh.classMatch]
  cases he : classEnd (bracketOpen :: q) with
  | none => rfl
  | some e =>
    obtain ⟨neg, body, rest, hb⟩ := bracket_of_classEnd he
    exact absurd hb (h neg body rest)

/-! ## Matching -/

theorem globMatch_star (pat s : Str) :
    globMatch (star :: pat) s = (pat.isEmpty || s.tails.any fun t => globMatch pat t) := by
  rw [globMatch.eq_def]
  dsimp only
  rw [if_pos rfl]

theorem globMatch_nil (h : a ≠ star) : globMatch (a :: p) [] = false := by
  rw [globMatch.eq_def]
  dsimp only
  rw [if_neg h]

theorem globMatch_cons (h : a ≠ star) : globMatch (a :: p) (c :: s) =
    match if a = bracketOpen then classMatch (a :: p) c else none with
    | some (rest, hit) => if hit then globMatch rest s else false
    | none => if a ≠ question ∧ a ≠ c then false else globMatch p s := by
  rw [globMatch.eq_def]
  dsimp only
  rw [if_neg h]
  split
  · next rest hit heq => rw [heq]
  · next heq => rw [heq]

/-- There is a way to read any pattern. -/
theorem exists_denotes (p : Str) : ∃ ps, Denotes p ps := by
  induction hn : p.length using Nat.strong_induction_on generalizing p with
  | _ n ih =>
    subst hn
    cases p with
    | nil => exact ⟨[], .nil⟩
    | cons c p =>
      obtain ⟨ps, hps⟩ := ih p.length (Nat.lt_succ_self _) p rfl
      by_cases hstar : c = star
      · subst hstar
        exact ⟨_, .star hps⟩
      · by_cases hquestion : c = question
        · subst hquestion
          exact ⟨_, .question hps⟩
        · by_cases hb : ∃ neg body rest, Bracket (c :: p) neg body rest
          · obtain ⟨neg, body, rest, hb⟩ := hb
            obtain ⟨mark, htext, -⟩ := hb.text
            have hlen : rest.length < (c :: p).length := by
              rw [htext]
              simp
              omega
            obtain ⟨ps, hps⟩ := ih rest.length hlen rest rfl
            exact ⟨_, .bracket hb hps⟩
          · simp only [not_exists] at hb
            exact ⟨_, .char hstar hquestion hb hps⟩

/-- **`glob_match`** decides the language of the pattern. -/
theorem globMatch_iff (h : Denotes p ps) (s : Str) : globMatch p s = true ↔ s ∈ language ps := by
  induction h generalizing s with
  | nil =>
    rw [globMatch, List.isEmpty_iff]
    exact Iff.rfl
  | @star p ps h ih =>
    rw [globMatch_star, Bool.or_eq_true, List.any_eq_true, mem_language_run]
    constructor
    · rintro (hnil | ⟨t, ht, hm⟩)
      · -- Without a rest the pattern stands for everything.
        rw [List.isEmpty_iff] at hnil
        subst hnil
        exact ⟨[], List.nil_suffix, (ih []).mp (by rw [globMatch]; rfl)⟩
      · exact ⟨t, (List.mem_tails t s).mp ht, (ih t).mp hm⟩
    · rintro ⟨t, ht, hm⟩
      exact .inr ⟨t, (List.mem_tails t s).mpr ht, (ih t).mpr hm⟩
  | @question p ps h ih =>
    have hstar : question ≠ star := by decide
    have hopen : question ≠ bracketOpen := by decide
    cases s with
    | nil =>
      exact iff_of_false (by rw [globMatch_nil hstar]; exact Bool.false_ne_true) not_nil_mem_one
    | cons c s =>
      rw [cons_mem_one, ← ih, globMatch_cons hstar, if_neg hopen]
      simp
  | @bracket p neg body rest ps hb h ih =>
    obtain ⟨-, -, hhead⟩ := hb.split
    cases p with
    | nil => exact absurd hhead (by simp)
    | cons a p =>
      obtain rfl : a = bracketOpen := Option.some.inj hhead
      have hstar : bracketOpen ≠ star := by decide
      cases s with
      | nil =>
        exact iff_of_false (by rw [globMatch_nil hstar]; exact Bool.false_ne_true) not_nil_mem_one
      | cons c s =>
        rw [cons_mem_one, ← ih, globMatch_cons hstar, if_pos rfl, hb.classMatch c]
        dsimp only
        by_cases hc : if neg then ¬Holds body c else Holds body c
        · simp [hc]
        · simp [hc]
  | @char c p ps hstar hquestion hb h ih =>
    cases s with
    | nil =>
      exact iff_of_false (by rw [globMatch_nil hstar]; exact Bool.false_ne_true) not_nil_mem_one
    | cons d s =>
      have hnone : (if c = bracketOpen then Sh.classMatch (c :: p) d else none) = none := by
        split
        · next hopen =>
          subst hopen
          exact classMatch_none hb d
        · rfl
      rw [cons_mem_one, ← ih, globMatch_cons hstar, hnone]
      dsimp only
      by_cases hd : d = c
      · subst hd
        simp
      · simp [hd, Ne.symm hd, hquestion]

theorem denotes_plain (h : hasGlob p = false) : Denotes p (p.map fun c => .one (· = c)) := by
  induction p with
  | nil => exact .nil
  | cons a p ih =>
    rw [hasGlob] at h
    simp only [Bool.or_eq_false_iff, Bool.and_eq_false_iff, decide_eq_false_iff_not] at h
    obtain ⟨⟨⟨hstar, hquestion⟩, hopen⟩, hrest⟩ := h
    refine .char hstar hquestion (fun neg body rest hb => ?_) (ih hrest)
    obtain ⟨-, -, hhead⟩ := hb.split
    rcases hopen with hopen | hend
    · exact hopen (Option.some.inj hhead)
    · rw [hb.classEnd] at hend
      exact absurd hend (by simp)

/-- **`glob_match` decides the pattern language**; where there is nothing to expand a pattern stands
for itself. -/
theorem globMatch_decides (pat s : Str) :
    (globMatch pat s = true ↔ ∃ ps, Denotes pat ps ∧ s ∈ language ps) ∧
      (hasGlob pat = false → (globMatch pat s = true ↔ s = pat)) := by
  constructor
  · constructor
    · intro h
      obtain ⟨ps, hps⟩ := exists_denotes pat
      exact ⟨ps, hps, (globMatch_iff hps s).mp h⟩
    · rintro ⟨ps, hps, hs⟩
      exact (globMatch_iff hps s).mpr hs
  · intro h
    rw [globMatch_iff (denotes_plain h) s, mem_language_letters]

end Sh

end Aurisys
