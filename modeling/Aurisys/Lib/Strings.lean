import Aurisys.Lib.Bytes
import Mathlib.Data.List.Forall2

/-!
# Strings and vectors in a byte memory

A string is its bytes and a zero behind them; a vector is its words, and often a zero word behind
them. Both are read from where they begin up to the zero, and both depend on their own bytes only,
so that they stay what they are while other bytes change.

## Main definitions

* `IsStr m p s` — the string at `p` is `s`
* `Packed m p ss` — the strings `ss` are at `p`, one behind the other
* `IsWords m p ws` — the words `ws` are at `p`
* `strlen`, `cstr`, `store`, `putWords`, `readVector` — how programs get at them

## Main results

* `IsStr.cstr_eq`, `readVector_eq` — what is there is what is read
* `IsStr.congr`, `Packed.congr`, `IsWords.congr` — strings and words depend on their own bytes only
-/

namespace Aurisys

namespace Bytes

/-! ## Strings -/

/-- The length of the string at `p`, if its zero is among the next bytes. -/
def strlenUpTo (m : Bytes) : ℕ → ℕ → ℕ
  | 0, _ => 0
  | n + 1, p => if m p = 0 then 0 else strlenUpTo m n (p + 1) + 1

/-- `strlen`: an address has 32 bits. -/
def strlen (m : Bytes) (p : ℕ) : ℕ := strlenUpTo m (2 ^ 32) p

/-- The string at `p`. -/
def cstr (m : Bytes) (p : ℕ) : List UInt8 := (List.range (strlen m p)).map fun i => m (p + i)

/-- The bytes of `s` are at `p`, none of them is zero, and there is a zero behind them. -/
def IsStr (m : Bytes) : ℕ → List UInt8 → Prop
  | p, [] => m p = 0
  | p, b :: s => b ≠ 0 ∧ m p = b ∧ IsStr m (p + 1) s

/-- How many bytes strings take, with their zeros. -/
def packedSize (ss : List (List UInt8)) : ℕ := (ss.map fun s => s.length + 1).sum

/-- The strings are one behind the other. -/
def Packed (m : Bytes) : ℕ → List (List UInt8) → Prop
  | _, [] => True
  | p, s :: ss => IsStr m p s ∧ Packed m (p + s.length + 1) ss

variable {m m' : Bytes} {p q : ℕ} {s : List UInt8} {ss ts : List (List UInt8)} {w : ℕ} {ws : List ℕ}

@[simp] theorem packedSize_nil : packedSize [] = 0 := rfl

@[simp] theorem packedSize_cons (s : List UInt8) (ss : List (List UInt8)) :
    packedSize (s :: ss) = s.length + 1 + packedSize ss := by
  simp [packedSize]

@[simp] theorem packedSize_append (ss ts : List (List UInt8)) :
    packedSize (ss ++ ts) = packedSize ss + packedSize ts := by
  simp [packedSize]

theorem length_le_packedSize (ss : List (List UInt8)) : ss.length ≤ packedSize ss := by
  induction ss with
  | nil => exact le_refl 0
  | cons s ss ih =>
    rw [packedSize_cons, List.length_cons]
    omega

theorem packedSize_le {n : ℕ} (h : ∀ s ∈ ss, s.length < n) : packedSize ss ≤ ss.length * n := by
  induction ss with
  | nil => exact Nat.zero_le _
  | cons s ss ih =>
    have hs := h s List.mem_cons_self
    have hss := ih fun t ht => h t (List.mem_cons_of_mem s ht)
    rw [packedSize_cons, List.length_cons, Nat.succ_mul]
    omega

/-- A string depends on its own bytes only. -/
theorem IsStr.congr (h : IsStr m p s) (hm : ∀ i ≤ s.length, m' (q + i) = m (p + i)) :
    IsStr m' q s := by
  induction s generalizing p q with
  | nil => exact (hm 0 (le_refl 0)).trans h
  | cons b s ih =>
    obtain ⟨hb, hp, hs⟩ := h
    refine ⟨hb, (hm 0 (Nat.zero_le _)).trans hp, ih hs fun i hi => ?_⟩
    have := hm (i + 1) (by rw [List.length_cons]; omega)
    rwa [Nat.add_comm i 1, ← Nat.add_assoc, ← Nat.add_assoc] at this

/-- The bytes of a list and a zero are a string, if there is no zero among them. -/
theorem isStr_of_bytes (h : ∀ i ≤ s.length, (s ++ [0])[i]? = some (m (p + i))) (hz : 0 ∉ s) :
    IsStr m p s := by
  induction s generalizing p with
  | nil => exact (Option.some.inj (h 0 le_rfl)).symm
  | cons c s ih =>
    have hc : m p = c := (Option.some.inj (h 0 (Nat.zero_le _))).symm
    rw [List.mem_cons, not_or] at hz
    refine ⟨Ne.symm hz.1, hc, ih (fun i hi => ?_) hz.2⟩
    have := h (i + 1) (Nat.succ_le_succ hi)
    rwa [List.cons_append, List.getElem?_cons_succ, ← Nat.add_assoc, Nat.add_right_comm] at this

/-- The end of a string is a string. -/
theorem IsStr.behind {t : List UInt8} (h : IsStr m p (s ++ t)) : IsStr m (p + s.length) t := by
  induction s generalizing p with
  | nil => exact h
  | cons b s ih =>
    rw [List.length_cons, Nat.add_comm s.length 1, ← Nat.add_assoc]
    exact ih h.2.2

theorem IsStr.strlenUpTo_eq (h : IsStr m p s) {n : ℕ} (hn : s.length < n) :
    strlenUpTo m n p = s.length := by
  induction s generalizing p n with
  | nil =>
    have hz : m p = 0 := h
    obtain ⟨n, rfl⟩ := Nat.exists_eq_add_of_lt hn
    rw [strlenUpTo, if_pos hz, List.length_nil]
  | cons b s ih =>
    obtain ⟨hb, hp, hs⟩ := h
    rw [List.length_cons] at hn
    obtain ⟨n, rfl⟩ : ∃ k, n = k + 1 := ⟨n - 1, by omega⟩
    rw [strlenUpTo, hp, if_neg hb, ih hs (by omega), List.length_cons]

/-- **`strlen`.** -/
theorem IsStr.strlen_eq (h : IsStr m p s) (hs : s.length < 2 ^ 32) : strlen m p = s.length :=
  h.strlenUpTo_eq hs

/-- **What is there is what is read.** -/
theorem IsStr.cstr_eq (h : IsStr m p s) (hs : s.length < 2 ^ 32) : cstr m p = s := by
  have hbytes : ∀ {s : List UInt8} {p : ℕ}, IsStr m p s →
      (List.range s.length).map (fun i => m (p + i)) = s := by
    intro s
    induction s with
    | nil => exact fun _ => rfl
    | cons b s ih =>
      intro p h
      obtain ⟨-, hp, hs⟩ := h
      rw [List.length_cons, List.range_succ_eq_map, List.map_cons, List.map_map, Nat.add_zero, hp]
      refine congrArg (b :: ·) (Eq.trans (List.map_congr_left fun i _ => ?_) (ih hs))
      show m (p + (i + 1)) = m (p + 1 + i)
      rw [Nat.add_comm i 1, Nat.add_assoc]
  rw [cstr, h.strlen_eq hs]
  exact hbytes h

/-- Strings that are packed depend on their own bytes only. -/
theorem Packed.congr (h : Packed m p ss) (hm : ∀ i < packedSize ss, m' (q + i) = m (p + i)) :
    Packed m' q ss := by
  induction ss generalizing p q with
  | nil => exact trivial
  | cons s ss ih =>
    rw [packedSize_cons] at hm
    refine ⟨h.1.congr fun i hi => hm i (by omega), ih h.2 fun i hi => ?_⟩
    have := hm (s.length + 1 + i) (by omega)
    rwa [← Nat.add_assoc, ← Nat.add_assoc, ← Nat.add_assoc, ← Nat.add_assoc] at this

theorem packed_append : Packed m p (ss ++ ts) ↔ Packed m p ss ∧
    Packed m (p + packedSize ss) ts := by
  induction ss generalizing p with
  | nil => exact ⟨fun h => ⟨trivial, h⟩, fun h => h.2⟩
  | cons s ss ih =>
    have hend : p + s.length + 1 + packedSize ss = p + packedSize (s :: ss) := by
      rw [packedSize_cons, Nat.add_assoc p, Nat.add_assoc p]
    rw [List.cons_append, Packed, Packed, ih, hend, and_assoc]

/-! ## Bytes -/

/-- Store bytes, one behind the other. -/
def store (m : Bytes) (p : ℕ) (bs : List UInt8) : Bytes := fun a =>
  if p ≤ a ∧ a < p + bs.length then bs.getD (a - p) 0 else m a

theorem store_nil (m : Bytes) (p : ℕ) : store m p [] = m :=
  funext fun _ => if_neg fun h => Nat.not_lt.mpr h.1 h.2

theorem store_of_lt_or_ge {bs : List UInt8} {a : ℕ} (h : a < p ∨ p + bs.length ≤ a) :
    store m p bs a = m a :=
  if_neg (by omega)

theorem getElem?_store {bs : List UInt8} {i : ℕ} (h : i < bs.length) :
    bs[i]? = some (store m p bs (p + i)) := by
  rw [store, if_pos ⟨Nat.le_add_right p i, Nat.add_lt_add_left h p⟩, Nat.add_sub_cancel_left,
    List.getD_eq_getElem?_getD, List.getElem?_eq_getElem h, Option.getD_some]

/-- The first ones, and then the others behind them. -/
theorem store_append (m : Bytes) (p : ℕ) (bs cs : List UInt8) :
    store m p (bs ++ cs) = store (store m p bs) (p + bs.length) cs := by
  funext a
  by_cases hb : p ≤ a ∧ a < p + bs.length
  · obtain ⟨i, rfl⟩ := Nat.exists_eq_add_of_le hb.1
    have hi : i < bs.length := Nat.lt_of_add_lt_add_left hb.2
    have hall : (bs ++ cs)[i]? = some (store m p (bs ++ cs) (p + i)) :=
      getElem?_store (hi.trans_le (List.length_append ▸ Nat.le_add_right _ _))
    rw [List.getElem?_append_left hi, getElem?_store (m := m) (p := p) hi] at hall
    rw [store_of_lt_or_ge (.inl hb.2)]
    exact (Option.some.inj hall).symm
  · by_cases hc : p + bs.length ≤ a ∧ a < p + bs.length + cs.length
    · obtain ⟨i, rfl⟩ := Nat.exists_eq_add_of_le hc.1
      have hi : i < cs.length := Nat.lt_of_add_lt_add_left hc.2
      have hall : (bs ++ cs)[bs.length + i]? = some (store m p (bs ++ cs) (p + (bs.length + i))) :=
        getElem?_store (List.length_append ▸ Nat.add_lt_add_left hi _)
      rw [List.getElem?_append_right (Nat.le_add_right _ _), Nat.add_sub_cancel_left,
        getElem?_store (m := store m p bs) (p := p + bs.length) hi, ← Nat.add_assoc] at hall
      exact (Option.some.inj hall).symm
    · rw [store_of_lt_or_ge (by rw [List.length_append]; omega), store_of_lt_or_ge (by omega),
        store_of_lt_or_ge (by omega)]

/-- The bytes of a string, with its zero. -/
theorem IsStr.bytes (h : IsStr m p s) {i : ℕ} (hi : i ≤ s.length) :
    (s ++ [0])[i]? = some (m (p + i)) := by
  induction s generalizing p i with
  | nil =>
    obtain rfl := Nat.le_zero.mp hi
    exact congrArg some h.symm
  | cons c s ih =>
    obtain ⟨-, hc, hs⟩ := h
    cases i with
    | zero => exact congrArg some hc.symm
    | succ i =>
      rw [List.cons_append, List.getElem?_cons_succ, ih hs (Nat.le_of_succ_le_succ hi),
        Nat.add_right_comm, Nat.add_assoc]

/-- A string is copied with its zero. -/
theorem IsStr.memcpy_eq {src : Bytes} (h : IsStr src q s) (m : Bytes) (p : ℕ) :
    memcpy m p src q (s.length + 1) = store m p (s ++ [0]) := by
  have hlen : (s ++ [0]).length = s.length + 1 := List.length_append
  funext a
  rw [memcpy, store, hlen]
  refine ite_congr rfl (fun ha => ?_) fun _ => rfl
  rw [List.getD_eq_getElem?_getD, h.bytes (by omega), Option.getD_some]

theorem isStr_store (m : Bytes) (p : ℕ) (hz : 0 ∉ s) : IsStr (store m p (s ++ [0])) p s :=
  isStr_of_bytes (fun _ hi => getElem?_store
    (by rw [List.length_append, List.length_singleton]; omega)) hz

/-- Strings can be packed. -/
theorem exists_packed (m : Bytes) (p : ℕ) (hz : ∀ s ∈ ss, 0 ∉ s) :
    ∃ m', Packed m' p ss ∧ ∀ a < p, m' a = m a := by
  induction ss generalizing m p with
  | nil => exact ⟨m, trivial, fun _ _ => rfl⟩
  | cons s ss ih =>
    obtain ⟨m', hp, hm⟩ :=
      ih (store m p (s ++ [0])) (p + s.length + 1) fun t ht => hz t (List.mem_cons_of_mem s ht)
    refine ⟨m', ⟨(isStr_store m p (hz s List.mem_cons_self)).congr fun i hi => hm _ (by omega), hp⟩,
      fun a ha => ?_⟩
    rw [hm a (by omega), store_of_lt_or_ge (.inl ha)]

/-! ## Vectors -/

/-- The words are at `p`. -/
def IsWords (m : Bytes) : ℕ → List ℕ → Prop
  | _, [] => True
  | p, w :: ws => r32 m p = w ∧ IsWords m (p + 4) ws

/-- Store words, one behind the other. -/
def putWords (m : Bytes) (p : ℕ) : List ℕ → Bytes
  | [] => m
  | w :: ws => putWords (w32 m p w) (p + 4) ws

/-- The strings that the words at `p` point at, up to a zero word. -/
def readVector (m : Bytes) : ℕ → ℕ → List (List UInt8)
  | 0, _ => []
  | n + 1, p => if r32 m p = 0 then [] else cstr m (r32 m p) :: readVector m n (p + 4)

theorem IsWords.congr (h : IsWords m p ws)
    (hm : ∀ a, p ≤ a → a < p + 4 * ws.length → m' a = m a) : IsWords m' p ws := by
  induction ws generalizing p with
  | nil => exact trivial
  | cons w ws ih =>
    rw [List.length_cons] at hm
    refine ⟨(r32_congr fun i hi => hm (p + i) (by omega) (by omega)).trans h.1, ih h.2 ?_⟩
    exact fun a ha hb => hm a (by omega) (by omega)

theorem IsWords.split {vs : List ℕ} (h : IsWords m p (ws ++ vs)) :
    IsWords m p ws ∧ IsWords m (p + 4 * ws.length) vs := by
  induction ws generalizing p with
  | nil => exact ⟨trivial, h⟩
  | cons w ws ih =>
    obtain ⟨hws, hvs⟩ := ih h.2
    refine ⟨⟨h.1, hws⟩, ?_⟩
    rwa [List.length_cons, show p + 4 * (ws.length + 1) = p + 4 + 4 * ws.length by omega]

theorem putWords_of_lt_or_ge {a : ℕ} (h : a < p ∨ p + 4 * ws.length ≤ a) :
    putWords m p ws a = m a := by
  induction ws generalizing m p with
  | nil => rfl
  | cons w ws ih =>
    rw [List.length_cons] at h
    rw [putWords, ih (by omega), w32_of_lt_or_ge (by omega)]

/-- Two words are stored in any order. -/
theorem w32_comm {v : ℕ} (h : p + 4 ≤ q) : w32 (w32 m q v) p w = w32 (w32 m p w) q v := by
  have hsame : ∀ {m₁ m₂ : Bytes} {r u a : ℕ}, m₁ a = m₂ a → w32 m₁ r u a = w32 m₂ r u a :=
    fun ha => by
    rw [w32, w32, ha]
  funext a
  by_cases ha : a < p + 4
  · rw [w32_of_lt_or_ge (m := w32 m p w) (p := q) (.inl (by omega))]
    exact hsame (w32_of_lt_or_ge (.inl (by omega)))
  · rw [w32_of_lt_or_ge (m := w32 m q v) (p := p) (.inr (by omega))]
    exact hsame (w32_of_lt_or_ge (.inr (by omega))).symm

theorem putWords_w32 (h : p + 4 ≤ q) : w32 (putWords m q ws) p w = putWords (w32 m p w) q ws := by
  induction ws generalizing m q with
  | nil => rfl
  | cons v ws ih => rw [putWords, putWords, ih (by omega), w32_comm h]

/-- The words in front are stored after those behind. -/
theorem putWords_append (m : Bytes) (p : ℕ) (ws vs : List ℕ) :
    putWords (putWords m (p + 4 * ws.length) vs) p ws = putWords m p (ws ++ vs) := by
  induction ws generalizing m p with
  | nil => rfl
  | cons w ws ih =>
    have hend : p + 4 * (w :: ws).length = p + 4 + 4 * ws.length := by
      rw [List.length_cons]
      omega
    rw [List.cons_append, putWords, putWords, hend, putWords_w32 (by omega), ih]

/-- **Read after write**, of words. -/
theorem isWords_putWords (m : Bytes) (p : ℕ) (h : ∀ w ∈ ws, w < 2 ^ 32) :
    IsWords (putWords m p ws) p ws := by
  induction ws generalizing m p with
  | nil => exact trivial
  | cons w ws ih =>
    refine ⟨?_, ih _ _ fun v hv => h v (List.mem_cons_of_mem w hv)⟩
    rw [putWords, r32_congr fun i hi => putWords_of_lt_or_ge (by omega), r32_w32_self]
    exact Nat.mod_eq_of_lt (h w List.mem_cons_self)

/-- **A vector** of pointers, none of them null, with a zero behind it is read to its end. -/
theorem readVector_eq (hw : IsWords m p ws) (hz : r32 m (p + 4 * ws.length) = 0)
    (hnull : ∀ w ∈ ws, w ≠ 0) (hss : List.Forall₂ (IsStr m) ws ss)
    (hlen : ∀ s ∈ ss, s.length < 2 ^ 32) {n : ℕ} (hn : ws.length < n) : readVector m n p = ss := by
  obtain ⟨n, rfl⟩ : ∃ k, n = k + 1 := ⟨n - 1, by omega⟩
  induction hss generalizing p n with
  | nil =>
    have hz : r32 m p = 0 := hz
    rw [readVector, if_pos hz]
  | @cons w s ws ss hs _ ih =>
    rw [List.length_cons] at hz hn
    obtain ⟨n, rfl⟩ : ∃ k, n = k + 1 := ⟨n - 1, by omega⟩
    rw [readVector, hw.1, if_neg (hnull w List.mem_cons_self),
      hs.cstr_eq (hlen s List.mem_cons_self)]
    refine congrArg (s :: ·) (ih hw.2 ?_ (fun v hv => hnull v (List.mem_cons_of_mem w hv))
      (fun t ht => hlen t (List.mem_cons_of_mem s ht)) n (by omega))
    rwa [show p + 4 + 4 * ws.length = p + 4 * (ws.length + 1) by omega]

end Bytes

end Aurisys
