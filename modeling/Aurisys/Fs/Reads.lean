import Aurisys.Fs.Prims

/-!
# What only reads

Looking something up fills the buffers and does nothing else. What is not a buffer is the core of
the state, and a function that only reads leaves it as it is, whether it finds something or not.

## Main definitions

* `Fs.core`
* `Reads`, `LeavesB2`

## Main results

* `reads_listDir`, `reads_lookupAbs`
-/

namespace Aurisys

open Bytes Fallible Path

namespace Fs

/-- The state without what is in the buffers. -/
def core (s : Fs) : Fs := ((s.setB1 fun _ => 0).setB2 fun _ => 0).setIno fun _ => 0

/-- The function leaves everything but the buffers as it is. -/
def Reads {α : Type} (x : Act α) : Prop := ∀ c, Keeps (fun s => s.core = c) x

variable {α β γ : Type} {s s' : Fs}

/-- What does not depend on the buffers stays. -/
theorem of_core (f : Fs → β) (hf : ∀ s, f s.core = f s) (h : s'.core = s.core) : f s' = f s := by
  rw [← hf s', h, hf s]

theorem core_disk (h : s'.core = s.core) : s'.disk = s.disk := of_core disk (fun _ => rfl) h

theorem core_geo (h : s'.core = s.core) : s'.geo = s.geo := of_core geo (fun _ => rfl) h

theorem core_hint (h : s'.core = s.core) : s'.hint = s.hint := of_core hint (fun _ => rfl) h

theorem core_inodes (h : s'.core = s.core) : s'.inodes = s.inodes := of_core inodes (fun _ => rfl) h

theorem core_setDisk (h : s'.core = s.core) (b : ℕ) (d : Bytes) :
    (s'.setDisk b d).core = (s.setDisk b d).core := by
  change s'.core.setDisk b d = s.core.setDisk b d
  rw [h]

theorem core_freeRun (h : s'.core = s.core) (n : ℕ) : s'.freeRun n = s.freeRun n :=
  of_core (freeRun · n) (fun _ => rfl) h

namespace Reads

variable {x : Act α} {f : α → Act β}

/-- After a function that only reads, whatever holds of every state with that core. -/
theorem wp (hx : Reads x) {Q : α → Fs → Prop} {E : Fs → Prop}
    (hQ : ∀ a s', s'.core = s.core → Q a s') (hE : ∀ s', s'.core = s.core → E s') :
    Fallible.wp x Q E s :=
  wp_mono (hx s.core s rfl) hQ hE

theorem exec_core (hx : Reads x) (s : Fs) : (exec x s).2.core = s.core := by
  have hkeep := hx s.core s rfl
  rw [Fallible.wp] at hkeep
  generalize exec x s = r at hkeep ⊢
  rcases r with ⟨_ | a, t⟩
  · exact hkeep
  · exact hkeep

theorem pure (a : α) : Reads (pure a : Act α) := fun _ => Keeps.pure a

theorem get : Reads (get : Act Fs) := fun _ => Keeps.get

theorem guard {p : Prop} [Decidable p] : Reads (guard p : Act Unit) := fun _ => Keeps.guard

theorem ofOption (o : Option α) : Reads (Fallible.ofOption o : Act α) := fun _ => Keeps.ofOption o

theorem failure : Reads (failure : Act α) := fun _ => Keeps.failure

theorem modify {f : Fs → Fs} (h : ∀ s, (f s).core = s.core) : Reads (modify f : Act PUnit) :=
  fun _ => Keeps.modify fun s hs => (h s).trans hs

theorem bind (hx : Reads x) (hf : ∀ a, Reads (f a)) : Reads (x >>= f) :=
  fun c => Keeps.bind (hx c) fun a => hf a c

theorem attempt (hx : Reads x) : Reads (Fallible.attempt x) := fun c => Keeps.attempt (hx c)

theorem ite {p : Prop} [Decidable p] {x y : Act α} (hx : Reads x) (hy : Reads y) :
    Reads (if p then x else y) := fun c => Keeps.ite (hx c) (hy c)

end Reads

/-! ## Blocks and inodes -/

theorem reads_readB1 (blk : ℕ) : Reads (readB1 blk) :=
  .bind .get fun _ => .bind .guard fun _ => .modify fun _ => rfl

theorem reads_readB2 (blk : ℕ) : Reads (readB2 blk) :=
  .bind .get fun _ => .bind .guard fun _ => .modify fun _ => rfl

theorem reads_loadInode (ino : ℕ) : Reads (loadInode ino) :=
  .bind .get fun _ => .bind .guard fun _ => .bind (reads_readB1 _) fun _ => .modify fun _ => rfl

theorem reads_extentWalk (lblock depth : ℕ) (node : Bytes) :
    Reads (extentWalk lblock depth node) := by
  induction depth generalizing node with
  | zero => exact .failure
  | succ depth ih =>
    exact .bind .guard fun _ => .ite (.ofOption _) <|
      .bind (.ofOption _) fun _ => .bind (reads_readB1 _) fun _ => .bind .get fun s => ih s.b1

theorem reads_pointer (p : ℕ) : Reads (pointer p) :=
  .bind .get fun _ => .bind .guard fun _ => .pure _

theorem reads_indirectWalk (lblock : ℕ) : Reads (indirectWalk lblock) :=
  .bind .get fun _ => .ite (reads_pointer _) <|
    .ite (.bind (reads_pointer _) fun _ => .bind (reads_readB1 _) fun _ => .bind .get fun _ =>
      reads_pointer _) <|
    .ite (.bind (reads_pointer _) fun _ => .bind (reads_readB1 _) fun _ => .bind .get fun _ =>
      .bind (reads_pointer _) fun _ => .bind (reads_readB1 _) fun _ => .bind .get fun _ =>
      reads_pointer _) .failure

theorem reads_mapLblock (lblock : ℕ) : Reads (mapLblock lblock) :=
  .bind .get fun _ => .ite (reads_extentWalk _ _ _) (reads_indirectWalk _)

/-! ## Directories -/

theorem reads_readDirBlock (dirIno b : ℕ) : Reads (readDirBlock dirIno b) :=
  .bind (reads_loadInode _) fun _ => .bind .get fun _ => .bind .guard fun _ =>
    .bind (reads_mapLblock _) fun _ => .bind (reads_readB2 _) fun _ => .pure _

theorem reads_listBlocks (cb : Dirent → γ → Bool × γ) (dirIno : ℕ) (l : List ℕ)
    (count : ℕ) (ctx : γ) :
    Reads (listBlocks cb dirIno l count ctx) := by
  induction l generalizing count ctx with
  | nil => exact .pure _
  | cons b l ih =>
    refine .bind (reads_readDirBlock _ _) fun _ => .bind .get fun s => ?_
    generalize callAll cb (dirents s.b2 s.geo.bs s.geo.bs 0) count ctx = r
    rcases r with ⟨_ | _, count', ctx'⟩
    · exact .pure _
    · exact ih count' ctx'

theorem reads_listDir (cb : Dirent → γ → Bool × γ) (dirIno : ℕ) (ctx : γ) :
    Reads (listDir cb dirIno ctx) :=
  .bind (reads_loadInode _) fun _ => .bind .get fun _ => .bind .guard fun _ =>
    reads_listBlocks _ _ _ _ _

theorem reads_lookupFrom (l : List Str) (ino : ℕ) : Reads (lookupFrom l ino) := by
  induction l generalizing ino with
  | nil => exact .pure _
  | cons want l ih =>
    exact .bind (reads_listDir _ _ _) fun _ => .bind (.ofOption _) fun d => ih d.ino

theorem reads_lookupAbs (path : Str) : Reads (lookupAbs path) :=
  .bind .get fun _ => reads_lookupFrom _ _

theorem reads_getstat (ino : ℕ) : Reads (getstat ino) :=
  .bind (reads_loadInode _) fun _ => .bind .get fun _ => .pure _

theorem reads_statDir (ino : ℕ) : Reads (statDir ino) := .bind (reads_getstat _) fun _ => .guard

theorem reads_checkEmpty (ino : ℕ) (isDir : Bool) : Reads (checkEmpty ino isDir) := by
  refine .ite (.bind (.attempt (reads_listDir _ _ _)) fun r => ?_) (.pure _)
  rcases r with _ | ⟨count, ctx⟩
  · exact .pure _
  · exact .guard

theorem reads_readLoop (len off fuel : ℕ) (out : List UInt8) :
    Reads (readLoop len off fuel out) := by
  induction fuel generalizing out with
  | zero => exact .pure _
  | succ fuel ih =>
    refine .bind .get fun s => .ite (.bind (.attempt ?_) fun r => .bind .get fun s' => ?_) (.pure _)
    · exact .bind (reads_mapLblock _) fun _ => reads_readB1 _
    · exact .ite (ih _) (.pure _)

theorem reads_read (ino len off : ℕ) : Reads (read ino len off) :=
  .bind (reads_loadInode _) fun _ => .bind .get fun _ => .bind .guard fun _ => .bind .guard fun _ =>
    reads_readLoop _ _ _ _

/-! ## Functions that do not use `g_b2` -/

/-- The function does not use `g_b2`. -/
def LeavesB2 {α : Type} (x : Act α) : Prop := ∀ c, Keeps (fun s => s.b2 = c) x

namespace LeavesB2

variable {α β : Type} {x y : Act α} {f : α → Act β}

theorem pure (a : α) : LeavesB2 (pure a : Act α) := fun _ => Keeps.pure a

theorem failure : LeavesB2 (failure : Act α) := fun _ => Keeps.failure

theorem get : LeavesB2 (get : Act Fs) := fun _ => Keeps.get

theorem guard {p : Prop} [Decidable p] : LeavesB2 (guard p : Act Unit) := fun _ => Keeps.guard

theorem ofOption (o : Option α) : LeavesB2 (Fallible.ofOption o : Act α) :=
  fun _ => Keeps.ofOption o

theorem attempt (hx : LeavesB2 x) : LeavesB2 (Fallible.attempt x) := fun c => Keeps.attempt (hx c)

theorem bind (hx : LeavesB2 x) (hf : ∀ a, LeavesB2 (f a)) : LeavesB2 (x >>= f) :=
  fun c => Keeps.bind (hx c) fun a => hf a c

theorem ite {p : Prop} [Decidable p] (hx : LeavesB2 x) (hy : LeavesB2 y) :
    LeavesB2 (if p then x else y) := fun c => Keeps.ite (hx c) (hy c)

theorem setB1 (g : Fs → Bytes) : LeavesB2 (modify fun s => s.setB1 (g s) : Act PUnit) :=
  fun _ => Keeps.modify fun _ hs => hs

theorem setIno (g : Fs → Bytes) : LeavesB2 (modify fun s => s.setIno (g s) : Act PUnit) :=
  fun _ => Keeps.modify fun _ hs => hs

theorem setHint (g : Fs → ℕ) : LeavesB2 (modify fun s => { s with hint := g s } : Act PUnit) :=
  fun _ => Keeps.modify fun _ hs => hs

theorem putBlock (blk : ℕ) (g : Fs → Bytes) :
    LeavesB2 (modify fun s => s.putBlock blk (g s) : Act PUnit) :=
  fun _ => Keeps.modify fun _ hs => hs

theorem settle (ub ui : ℤ) : LeavesB2 (modify fun s => (s.settle ub ui).putSb : Act PUnit) :=
  fun _ => Keeps.modify fun _ hs => hs

theorem readB1 (blk : ℕ) : LeavesB2 (readB1 blk) := bind get fun _ => bind guard fun _ => setB1 _

theorem writeB1 (blk : ℕ) : LeavesB2 (writeB1 blk) :=
  bind get fun _ => bind guard fun _ => putBlock _ _

theorem loadInode (ino : ℕ) : LeavesB2 (loadInode ino) :=
  bind get fun _ => bind guard fun _ => bind (readB1 _) fun _ => setIno _

theorem storeInode (ino : ℕ) : LeavesB2 (storeInode ino) :=
  bind get fun _ => bind (readB1 _) fun _ => bind (setB1 _) fun _ => writeB1 _

theorem extentWalk (lblock depth : ℕ) (node : Bytes) : LeavesB2 (extentWalk lblock depth node) := by
  induction depth generalizing node with
  | zero => exact failure
  | succ depth ih =>
    exact bind guard fun _ => ite (ofOption _) (bind (ofOption _) fun _ => bind (readB1 _) fun _ =>
      bind get fun _ => ih _)

theorem pointer (p : ℕ) : LeavesB2 (pointer p) := bind get fun _ => bind guard fun _ => pure _

theorem indirectWalk (lblock : ℕ) : LeavesB2 (indirectWalk lblock) :=
  bind get fun _ => ite (pointer _) <| ite
    (bind (pointer _) fun _ => bind (readB1 _) fun _ => bind get fun _ => pointer _) <| ite
    (bind (pointer _) fun _ => bind (readB1 _) fun _ => bind get fun _ => bind (pointer _) fun _ =>
      bind (readB1 _) fun _ => bind get fun _ => pointer _) failure

theorem mapLblock (lblock : ℕ) : LeavesB2 (mapLblock lblock) :=
  bind get fun _ => ite (extentWalk _ _ _) (indirectWalk _)

end LeavesB2

end Fs

end Aurisys
