import Aurisys.Fs.Files

/-!
# What a directory lists

The entries of a directory are what a callback sees that never has enough. Any other callback sees
them in the same order, and stops somewhere.

## Main definitions

* `Fs.entries` — the entries, if `list_dir` does not fail

## Main results

* `exec_listDir` — what any callback makes of them
-/

namespace Aurisys

open Bytes Fallible Path

namespace Fs

variable {γ : Type} {cb : Dirent → γ → Bool × γ} {s s' : Fs} {dirIno count : ℕ} {ctx : γ}
  {es ds : List Dirent}

/-- The callback that takes every entry. -/
def collect (d : Dirent) (l : List Dirent) : Bool × List Dirent := (true, l ++ [d])

/-- What `list_dir` lists. -/
def entries (s : Fs) (dirIno : ℕ) : Option (List Dirent) :=
  (exec (listDir collect dirIno []) s).1.map Prod.snd

/-- Where a callback stops, it does not see the rest. -/
theorem callAll_append (cb : Dirent → γ → Bool × γ) (ds es : List Dirent) (count : ℕ) (ctx : γ) :
    callAll cb (ds ++ es) count ctx =
      match callAll cb ds count ctx with
      | (true, count', ctx') => callAll cb es count' ctx'
      | (false, count', ctx') => (false, count', ctx') := by
  induction ds generalizing count ctx with
  | nil => rfl
  | cons d ds ih =>
    rw [List.cons_append, callAll, callAll]
    rcases cb d ctx with ⟨_ | _, ctx'⟩
    · rfl
    · exact ih _ _

theorem callAll_collect (ds : List Dirent) (count : ℕ) (l : List Dirent) :
    callAll collect ds count l = (true, count + ds.length, l ++ ds) := by
  induction ds generalizing count l with
  | nil => rw [callAll, List.append_nil, List.length_nil, Nat.add_zero]
  | cons d ds ih =>
    rw [callAll]
    change callAll collect ds (count + 1) (l ++ [d]) = _
    rw [ih, List.append_assoc, List.singleton_append, List.length_cons, Nat.add_right_comm,
      Nat.add_assoc]

/-- The callback that takes every entry goes through all blocks, and any other one goes through them
with it. -/
theorem listBlocks_collect {l : List ℕ} {es₀ es' : List Dirent} {count' : ℕ}
    (h : (exec (listBlocks collect dirIno l count es₀) s).1 = some (count', es')) :
    ∃ es, es' = es₀ ++ es ∧ ∀ {γ : Type} (cb : Dirent → γ → Bool × γ) (k : ℕ) (ctx : γ),
      (exec (listBlocks cb dirIno l k ctx) s).1 = some (callAll cb es k ctx).2 := by
  induction l generalizing s count es₀ with
  | nil =>
    rw [listBlocks, exec_pure] at h
    obtain ⟨_, rfl⟩ := Prod.ext_iff.mp (Option.some.inj h)
    exact ⟨[], (List.append_nil _).symm, fun _ _ _ => rfl⟩
  | cons b l ih =>
    rw [listBlocks, exec_bind] at h
    generalize hr : exec (readDirBlock dirIno b) s = r at h
    rcases r with ⟨_ | phys, s₁⟩
    · simp at h
    · simp only [exec_bind, exec_get, callAll_collect] at h
      generalize hds : dirents s₁.b2 s₁.geo.bs s₁.geo.bs 0 = ds at h
      obtain ⟨es, he, hcb⟩ := ih h
      refine ⟨ds ++ es, by rw [he, List.append_assoc], fun cb k ctx => ?_⟩
      rw [listBlocks, exec_bind, hr]
      simp only [exec_bind, exec_get, hds, callAll_append]
      rcases callAll cb ds k ctx with ⟨_ | _, k', ctx'⟩
      · rfl
      · exact hcb cb k' ctx'

/-- **What a callback makes of a directory** is what it makes of the entries. -/
theorem exec_listDir (h : s.entries dirIno = some es) (cb : Dirent → γ → Bool × γ) (ctx : γ) :
    (exec (listDir cb dirIno ctx) s).1 = some (callAll cb es 0 ctx).2 := by
  obtain ⟨⟨n, es'⟩, hr, hes⟩ := Option.map_eq_some_iff.mp h
  have hes : es' = es := hes
  rw [listDir] at hr ⊢
  generalize hload : exec (loadInode dirIno) s = r at hr ⊢
  rcases r with ⟨_ | _, s₁⟩
  · rw [exec_bind_of_none hload] at hr
    simp at hr
  · rw [exec_bind_of_some hload, exec_get_bind, exec_guard_bind] at hr ⊢
    split at hr
    · next hdir =>
      rw [if_pos hdir]
      obtain ⟨es'', he, hcb⟩ := listBlocks_collect hr
      rw [List.nil_append] at he
      rw [hcb cb 0 ctx, ← he, hes]
    · simp at hr

end Fs

end Aurisys
