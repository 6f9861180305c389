import Mathlib.Computability.Language

/-!
# Patterns with wildcards

A pattern is a list of pieces, each of which stands for some run of letters or for one letter. Its
language is the product of the languages of its pieces.

## Main definitions

* `Piece` — a piece of a pattern
* `Wildcard.language` — the strings that a pattern stands for

## Main results

* `mem_language_run`, `mem_language_one` — what is left when the first piece has been read
* `mem_language_letters` — a pattern of letters stands for itself
-/

namespace Aurisys

/-- Any run of letters, or one letter that meets the condition. -/
inductive Piece (α : Type*)
  | run
  | one (p : α → Prop)

namespace Wildcard

variable {α : Type*} {ps : List (Piece α)} {p : α → Prop} {s : List α}

def pieceLanguage : Piece α → Language α
  | .run => ⊤
  | .one p => {s | ∃ c, p c ∧ s = [c]}

/-- **The strings that a pattern stands for.** -/
def language (ps : List (Piece α)) : Language α := (ps.map pieceLanguage).prod

/-- A run takes some letters from the front. -/
theorem mem_language_run : s ∈ language (.run :: ps) ↔ ∃ t, t <:+ s ∧ t ∈ language ps := by
  rw [language, List.map_cons, List.prod_cons, Language.mem_mul]
  constructor
  · rintro ⟨a, -, b, hb, rfl⟩
    exact ⟨b, List.suffix_append a b, hb⟩
  · rintro ⟨t, ⟨a, rfl⟩, ht⟩
    exact ⟨a, trivial, t, ht, rfl⟩

/-- Any other piece takes one letter. -/
theorem mem_language_one : s ∈ language (.one p :: ps) ↔ ∃ c t, s = c :: t ∧ p c ∧
    t ∈ language ps := by
  rw [language, List.map_cons, List.prod_cons, Language.mem_mul]
  constructor
  · rintro ⟨_, ⟨c, hc, rfl⟩, t, ht, rfl⟩
    exact ⟨c, t, rfl, hc, ht⟩
  · rintro ⟨c, t, rfl, hc, ht⟩
    exact ⟨[c], ⟨c, hc, rfl⟩, t, ht, rfl⟩

theorem not_nil_mem_one : [] ∉ language (.one p :: ps) := by
  rw [mem_language_one]
  rintro ⟨c, t, h, -⟩
  exact List.cons_ne_nil c t h.symm

theorem cons_mem_one {c : α} : c :: s ∈ language (.one p :: ps) ↔ p c ∧ s ∈ language ps := by
  rw [mem_language_one]
  constructor
  · rintro ⟨c', t, h, hc, ht⟩
    obtain ⟨rfl, rfl⟩ := List.cons.inj h
    exact ⟨hc, ht⟩
  · rintro ⟨hc, ht⟩
    exact ⟨c, s, rfl, hc, ht⟩

/-- A pattern of letters stands for itself. -/
theorem mem_language_letters (w : List α) : s ∈ language (w.map fun c => .one (· = c)) ↔ s = w := by
  induction w generalizing s with
  | nil => exact Iff.rfl
  | cons c w ih =>
    rw [List.map_cons]
    cases s with
    | nil => exact iff_of_false not_nil_mem_one (List.cons_ne_nil c w).symm
    | cons a s => rw [cons_mem_one, ih, List.cons.injEq]

end Wildcard

end Aurisys
