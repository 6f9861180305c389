import Mathlib.Logic.Function.Basic

/-!
# Ownership

Things that can be in use, and owners that have some of them. Some things are kept back and belong
to nobody. Between being taken and being given to an owner, and between being lost by an owner and
being returned, a thing is spare.

What is said here is that nothing has two owners, and that nothing that has an owner, is spare or is
kept back is free to be taken. There are five moves: to take what is free, to give what is spare to
an owner, to take it away again, to hand what one owner has to another, and to return what is spare.

## Main definitions

* `Ownership`

## Main results

* `Ownership.take`, `Ownership.adopt`, `Ownership.drop`, `Ownership.relabel`, `Ownership.give`
-/

namespace Aurisys

variable {ι α : Type*}

/-- Who has what of the things in use. -/
structure Ownership (kept used : α → Prop) (own : ι → α → Prop) (spare : α → Prop) : Prop where
  /-- What is kept is in use, -/
  kept_used : ∀ b, kept b → used b
  /-- and so is what is owned. -/
  own_used : ∀ i b, own i b → used b
  /-- Nobody owns what is kept. -/
  own_kept : ∀ i b, own i b → ¬kept b
  /-- Nothing has two owners. -/
  unique : ∀ i j b, own i b → own j b → i = j
  /-- What is spare is in use, -/
  spare_used : ∀ b, spare b → used b
  /-- but it is not kept, -/
  spare_kept : ∀ b, spare b → ¬kept b
  /-- and nobody owns it. -/
  spare_own : ∀ i b, spare b → ¬own i b

namespace Ownership

variable {kept used used' spare spare' : α → Prop} {own own' : ι → α → Prop}

/-- **Taking** what is free. -/
theorem take {new : α → Prop} (h : Ownership kept used own spare) (hfree : ∀ b, new b → ¬used b)
    (hused : ∀ b, used' b ↔ new b ∨ used b) :
    Ownership kept used' own fun b => new b ∨ spare b where
  kept_used b hb := (hused b).mpr (.inr (h.kept_used b hb))
  own_used i b hb := (hused b).mpr (.inr (h.own_used i b hb))
  own_kept := h.own_kept
  unique := h.unique
  spare_used b hb := (hused b).mpr (hb.imp_right (h.spare_used b))
  spare_kept b hb hk := hb.elim (fun hn => hfree b hn (h.kept_used b hk)) fun hs =>
    h.spare_kept b hs hk
  spare_own i b hb ho := hb.elim (fun hn => hfree b hn (h.own_used i b ho)) fun hs =>
    h.spare_own i b hs ho

/-- **Adopting**: one owner may get what is spare. Nothing is spare afterwards. -/
theorem adopt {k : ι} (h : Ownership kept used own spare)
    (hown : ∀ i b, own' i b → own i b ∨ i = k ∧ spare b) :
    Ownership kept used own' fun _ => False where
  kept_used := h.kept_used
  own_used i b hb := (hown i b hb).elim (h.own_used i b) fun hs => h.spare_used b hs.2
  own_kept i b hb := (hown i b hb).elim (h.own_kept i b) fun hs => h.spare_kept b hs.2
  unique i j b hi hj := by
    rcases hown i b hi with hi | ⟨hi, hsi⟩
    · rcases hown j b hj with hj | ⟨_, hsj⟩
      · exact h.unique i j b hi hj
      · exact absurd hi (h.spare_own i b hsj)
    · rcases hown j b hj with hj | ⟨hj, _⟩
      · exact absurd hj (h.spare_own j b hsi)
      · rw [hi, hj]
  spare_used _ hb := hb.elim
  spare_kept _ hb := hb.elim
  spare_own _ _ hb := hb.elim

/-- **Losing**: owners have less, and less is spare. -/
theorem drop (h : Ownership kept used own spare) (hown : ∀ i b, own' i b → own i b)
    (hspare : ∀ b, spare' b → spare b) : Ownership kept used own' spare' where
  kept_used := h.kept_used
  own_used i b hb := h.own_used i b (hown i b hb)
  own_kept i b hb := h.own_kept i b (hown i b hb)
  unique i j b hi hj := h.unique i j b (hown i b hi) (hown j b hj)
  spare_used b hb := h.spare_used b (hspare b hb)
  spare_kept b hb := h.spare_kept b (hspare b hb)
  spare_own i b hb ho := h.spare_own i b (hspare b hb) (hown i b ho)

/-- **Handing over**: an owner has what another had, no two the same. What an owner has lost that no
one has now is spare. -/
theorem relabel {f : ι → ι} (h : Ownership kept used own fun _ => False) (hf : Function.Injective f)
    (hown : ∀ i b, own' i b → own (f i) b)
    (hspare : ∀ b, spare' b → ∃ i, own i b ∧ ∀ j, own' j b → f j ≠ i) :
    Ownership kept used own' spare' where
  kept_used := h.kept_used
  own_used i b hb := h.own_used (f i) b (hown i b hb)
  own_kept i b hb := h.own_kept (f i) b (hown i b hb)
  unique i j b hi hj := hf (h.unique (f i) (f j) b (hown i b hi) (hown j b hj))
  spare_used b hb := by
    obtain ⟨i, hi, _⟩ := hspare b hb
    exact h.own_used i b hi
  spare_kept b hb := by
    obtain ⟨i, hi, _⟩ := hspare b hb
    exact h.own_kept i b hi
  spare_own j b hb ho := by
    obtain ⟨i, hi, hne⟩ := hspare b hb
    exact hne j ho (h.unique (f j) i b (hown j b ho) hi)

/-- **Returning** some of what is spare. -/
theorem give {gone : α → Prop} (h : Ownership kept used own spare)
    (hgone : ∀ b, gone b → spare b) (hused : ∀ b, used b → ¬gone b → used' b) :
    Ownership kept used' own fun b => spare b ∧ ¬gone b where
  kept_used b hb := hused b (h.kept_used b hb) fun hg => h.spare_kept b (hgone b hg) hb
  own_used i b hb := hused b (h.own_used i b hb) fun hg => h.spare_own i b (hgone b hg) hb
  own_kept := h.own_kept
  unique := h.unique
  spare_used b hb := hused b (h.spare_used b hb.1) hb.2
  spare_kept b hb := h.spare_kept b hb.1
  spare_own i b hb := h.spare_own i b hb.1

end Ownership

end Aurisys
