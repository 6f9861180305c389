import Mathlib.Data.List.Induction

/-!
# Lists that are written over one another

Each list is written into the same cells, from the first one on, over what is there. When all of
them have been written, each finds itself there again just when they agree wherever two of them have
something.

## Main definitions

* `Overlay.overlay`, `Overlay.overlays` — one list, and all of them in turn
* `Overlay.Agree` — two lists have the same wherever both of them have something

## Main results

* `Overlay.overlays_iff`
-/

namespace Aurisys

namespace Overlay

variable {α : Type*} {h : ℕ → α} {l l' : List α} {ls : List (List α)} {k : ℕ} {c : α}

/-- The list is written over the cells. -/
def overlay (h : ℕ → α) (l : List α) : ℕ → α := fun k => l.getD k (h k)

/-- The lists are written one after another. -/
def overlays (h : ℕ → α) (ls : List (List α)) : ℕ → α := ls.foldl overlay h

def Agree (ls : List (List α)) : Prop :=
  ∀ l ∈ ls, ∀ l' ∈ ls, ∀ (k : ℕ) (c c' : α), l[k]? = some c → l'[k]? = some c' → c = c'

theorem overlays_append (h : ℕ → α) (ls : List (List α)) (l : List α) :
    overlays h (ls ++ [l]) = overlay (overlays h ls) l := List.foldl_append

theorem overlay_of_some (hl : l[k]? = some c) : overlay h l k = c := by
  rw [overlay, List.getD_eq_getElem?_getD, hl]
  rfl

theorem overlay_of_none (hl : l[k]? = none) : overlay h l k = h k := by
  rw [overlay, List.getD_eq_getElem?_getD, hl]
  rfl

/-- A cell that some list has written has what one of them has there. -/
theorem exists_overlays (hl : l ∈ ls) (hc : l[k]? = some c) :
    ∃ l' ∈ ls, l'[k]? = some (overlays h ls k) := by
  induction ls using List.reverseRecOn with
  | nil => exact absurd hl List.not_mem_nil
  | append_singleton ls a ih =>
    rw [overlays_append]
    cases ha : a[k]? with
    | some d =>
      exact ⟨a, List.mem_append_right _ List.mem_cons_self, by rw [ha, overlay_of_some ha]⟩
    | none =>
      rw [overlay_of_none ha]
      rcases List.mem_append.mp hl with hl | hl
      · obtain ⟨l', hl', hk⟩ := ih hl
        exact ⟨l', List.mem_append_left _ hl', hk⟩
      · obtain rfl := List.mem_singleton.mp hl
        exact absurd (ha.symm.trans hc) (by simp)

/-- **Each list finds itself again just when all of them agree.** -/
theorem overlays_iff (h : ℕ → α) (ls : List (List α)) :
    (∀ l ∈ ls, (List.range l.length).map (overlays h ls) = l) ↔ Agree ls := by
  have hcell : ∀ l : List α, (List.range l.length).map (overlays h ls) = l ↔
      ∀ k c, l[k]? = some c → overlays h ls k = c := by
    intro l
    constructor
    · intro heq k c hc
      have hk : k < l.length := (List.getElem?_eq_some_iff.mp hc).1
      have hget : ((List.range l.length).map (overlays h ls))[k]? = some (overlays h ls k) := by
        rw [List.getElem?_map, List.getElem?_range hk]
        rfl
      rw [heq, hc] at hget
      exact (Option.some.inj hget).symm
    · intro hall
      refine List.ext_getElem (by rw [List.length_map, List.length_range]) fun k hk hk' => ?_
      rw [List.getElem_map, List.getElem_range]
      exact hall k _ (List.getElem?_eq_getElem hk')
  simp only [hcell]
  constructor
  · intro hall l hl l' hl' k c c' hc hc'
    exact (hall l hl k c hc).symm.trans (hall l' hl' k c' hc')
  · intro hagree l hl k c hc
    obtain ⟨l', hl', hk⟩ := exists_overlays (h := h) hl hc
    exact hagree l' hl' l hl k _ _ hk hc

end Overlay

end Aurisys
