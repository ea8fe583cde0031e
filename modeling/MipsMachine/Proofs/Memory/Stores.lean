import MipsMachine.Memory

namespace MipsMachine

theorem Word.toNat_add_ofNat (a : Word) (i : Nat) (h : a.toNat + i < 0x100000000) :
    (a + BitVec.ofNat 32 i).toNat = a.toNat + i := by
  rw [BitVec.toNat_add, BitVec.toNat_ofNat]
  omega

theorem Word.add_ofNat_succ (a : Word) (n : Nat) :
    a + BitVec.ofNat 32 (n + 1) = a + 1 + BitVec.ofNat 32 n := by
  rw [Nat.add_comm n, BitVec.ofNat_add, BitVec.add_assoc]
  rfl

abbrev Store := Word × List Byte

namespace Store

def stop (s : Store) : Nat := s.1.toNat + s.2.length

def InRange (s : Store) : Prop := s.stop ≤ 0x100000000

def Covers (s : Store) (a : Word) : Prop := s.1.toNat ≤ a.toNat ∧ a.toNat < s.stop

def Apart (s t : Store) : Prop := s.stop ≤ t.1.toNat ∨ t.stop ≤ s.1.toNat

def byteAt (s : Store) (a : Word) : Option Byte :=
  if s.1.toNat ≤ a.toNat then s.2[a.toNat - s.1.toNat]? else none

theorem Apart.symm {s t : Store} (h : Apart s t) : Apart t s := Or.symm h

theorem byteAt_eq_none_iff (s : Store) (a : Word) : s.byteAt a = none ↔ ¬ s.Covers a := by
  unfold byteAt Covers stop
  split
  · rw [List.getElem?_eq_none_iff]
    omega
  · simp
    omega

theorem Apart.not_covers {s t : Store} (h : Apart s t) {a : Word} (hs : s.Covers a) : ¬ t.Covers a := by
  unfold Apart at h
  unfold Covers at hs ⊢
  omega

theorem covers_of_byteAt {s : Store} {a : Word} {b : Byte} (h : s.byteAt a = some b) : s.Covers a := by
  by_cases hc : s.Covers a
  · exact hc
  · rw [(s.byteAt_eq_none_iff a).mpr hc] at h
    cases h

end Store

namespace Memory

def setAll (m : Memory) (stores : List Store) : Memory :=
  stores.foldl (fun memory s => memory.setBytes s.1 s.2) m

@[simp] theorem setAll_cons (m : Memory) (s : Store) (ss : List Store) :
    m.setAll (s :: ss) = (m.setBytes s.1 s.2).setAll ss := rfl

theorem setAll_append (m : Memory) (ss ts : List Store) :
    m.setAll (ss ++ ts) = (m.setAll ss).setAll ts := List.foldl_append

theorem setBytes_append (m : Memory) (a : Word) (xs ys : List Byte) :
    m.setBytes a (xs ++ ys) = (m.setBytes a xs).setBytes (a + BitVec.ofNat 32 xs.length) ys := by
  induction xs generalizing m a with
  | nil => simp [setBytes]
  | cons x xs ih =>
    rw [List.cons_append, setBytes, ih, setBytes, List.length_cons, Word.add_ofNat_succ]

theorem getByte_setStore (m : Memory) (s : Store) (hs : s.InRange) (a : Word) :
    (m.setBytes s.1 s.2).getByte a = (s.byteAt a).getD (m.getByte a) := by
  unfold Store.InRange Store.stop at hs
  rw [getByte_setBytes m s.1 a s.2 (by omega)]
  unfold Store.byteAt
  have ha := a.isLt
  have hb := s.1.isLt
  split
  · congr 2
    rw [BitVec.toNat_sub]
    omega
  · rw [List.getElem?_eq_none]
    rw [BitVec.toNat_sub]
    omega

theorem getByte_setAll_of_not_covers (m : Memory) (ss : List Store) (a : Word)
    (hr : ∀ s ∈ ss, s.InRange) (h : ∀ s ∈ ss, ¬ s.Covers a) : (m.setAll ss).getByte a = m.getByte a := by
  induction ss generalizing m with
  | nil => rfl
  | cons s ss ih =>
    have hs := (s.byteAt_eq_none_iff a).mpr (h s List.mem_cons_self)
    rw [setAll_cons, ih _ (fun t ht => hr t (List.mem_cons_of_mem s ht))
      (fun t ht => h t (List.mem_cons_of_mem s ht)), getByte_setStore m s (hr s List.mem_cons_self), hs]
    rfl

theorem getByte_setAll_congr {m n : Memory} {a : Word} (h : m.getByte a = n.getByte a) {ss : List Store}
    (hr : ∀ s ∈ ss, s.InRange) : (m.setAll ss).getByte a = (n.setAll ss).getByte a := by
  induction ss generalizing m n with
  | nil => exact h
  | cons s ss ih =>
    have hs := hr s List.mem_cons_self
    refine ih ?_ (fun t ht => hr t (List.mem_cons_of_mem s ht))
    rw [getByte_setStore m s hs, getByte_setStore n s hs, h]

theorem setAll_congr {m n : Memory} (h : m.getByte = n.getByte) (ss : List Store)
    (hr : ∀ s ∈ ss, s.InRange) : (m.setAll ss).getByte = (n.setAll ss).getByte :=
  funext fun a => getByte_setAll_congr (congrFun h a) hr

theorem setBytes_overwrite (m : Memory) {s t : Store} (ha : s.1 = t.1) (hl : s.2.length = t.2.length)
    (ht : t.InRange) : ((m.setBytes s.1 s.2).setBytes t.1 t.2).getByte = (m.setBytes t.1 t.2).getByte := by
  have hs : s.InRange := by
    unfold Store.InRange Store.stop at ht ⊢
    rw [ha, hl]
    exact ht
  funext a
  rw [getByte_setStore _ t ht, getByte_setStore _ s hs, getByte_setStore _ t ht]
  cases hb : t.byteAt a with
  | some b => rfl
  | none =>
    have hn : s.byteAt a = none := by
      rw [Store.byteAt_eq_none_iff] at hb ⊢
      unfold Store.Covers Store.stop at hb ⊢
      rw [ha, hl]
      exact hb
    rw [hn]
    rfl

theorem setAll_comm_of_disjoint (m : Memory) (ss ts : List Store) (hs : ∀ s ∈ ss, s.InRange)
    (ht : ∀ t ∈ ts, t.InRange) (h : ∀ s ∈ ss, ∀ t ∈ ts, ∀ a, s.Covers a → ¬ t.Covers a) :
    ((m.setAll ss).setAll ts).getByte = ((m.setAll ts).setAll ss).getByte := by
  funext a
  by_cases hc : ∃ s ∈ ss, s.Covers a
  · obtain ⟨s, hm, hc⟩ := hc
    have hn : ∀ t ∈ ts, ¬ t.Covers a := fun t htm => h s hm t htm a hc
    exact (getByte_setAll_of_not_covers _ ts a ht hn).trans
      (getByte_setAll_congr (getByte_setAll_of_not_covers m ts a ht hn).symm hs)
  · have hn : ∀ s ∈ ss, ¬ s.Covers a := fun s hm hs => hc ⟨s, hm, hs⟩
    exact (getByte_setAll_congr (getByte_setAll_of_not_covers m ss a hs hn) ht).trans
      (getByte_setAll_of_not_covers _ ss a hs hn).symm

theorem setAll_comm (m : Memory) (ss ts : List Store) (hs : ∀ s ∈ ss, s.InRange)
    (ht : ∀ t ∈ ts, t.InRange) (h : ∀ s ∈ ss, ∀ t ∈ ts, s.Apart t) :
    ((m.setAll ss).setAll ts).getByte = ((m.setAll ts).setAll ss).getByte :=
  setAll_comm_of_disjoint m ss ts hs ht fun s hsm t htm _ => (h s hsm t htm).not_covers

theorem setAll_setBytes_comm (m : Memory) (s : Store) (ts : List Store) (hs : s.InRange)
    (ht : ∀ t ∈ ts, t.InRange) (h : ∀ t ∈ ts, s.Apart t) :
    ((m.setBytes s.1 s.2).setAll ts).getByte = ((m.setAll ts).setBytes s.1 s.2).getByte :=
  setAll_comm m [s] ts (List.forall_mem_singleton.mpr hs) ht (List.forall_mem_singleton.mpr h)

theorem getWord_congr {m n : Memory} {a : Word}
    (h : ∀ b, a.toNat ≤ b.toNat → b.toNat < a.toNat + 4 → m.getByte b = n.getByte b)
    (ha : a.toNat + 4 ≤ 0x100000000) : m.getWord a = n.getWord a := by
  have hb (i : Nat) (hi : i < 4) : m.getByte (a + BitVec.ofNat 32 i) = n.getByte (a + BitVec.ofNat 32 i) := by
    have hn := Word.toNat_add_ofNat a i (by omega)
    exact h _ (by omega) (by omega)
  have h0 : m.getByte a = n.getByte a := h a (by omega) (by omega)
  have h1 : m.getByte (a + 1) = n.getByte (a + 1) := hb 1 (by omega)
  have h2 : m.getByte (a + 2) = n.getByte (a + 2) := hb 2 (by omega)
  have h3 : m.getByte (a + 3) = n.getByte (a + 3) := hb 3 (by omega)
  unfold getWord
  rw [h0, h1, h2, h3]

theorem getWord_setBytes (m : Memory) (a w : Word) (ha : a.toNat + 4 ≤ 0x100000000) :
    (m.setBytes a w.bytes).getWord a = w := by
  have hb (i : Nat) (hi : i < 4) : (m.setBytes a w.bytes).getByte (a + BitVec.ofNat 32 i) =
      w.bytes.getD i 0 := by
    have hn := Word.toNat_add_ofNat a i (by omega)
    have hl : i < w.bytes.length := hi
    rw [getByte_setStore m (a, w.bytes) ha]
    simp only [Store.byteAt, hn, Nat.le_add_right, if_true, Nat.add_sub_cancel_left,
      List.getD_eq_getElem?_getD, List.getElem?_eq_getElem hl, Option.getD_some]
  have h0 := hb 0 (by omega)
  rw [BitVec.add_zero] at h0
  have h1 : (m.setBytes a w.bytes).getByte (a + 1) = w.extractLsb' 16 8 := hb 1 (by omega)
  have h2 : (m.setBytes a w.bytes).getByte (a + 2) = w.extractLsb' 8 8 := hb 2 (by omega)
  have h3 : (m.setBytes a w.bytes).getByte (a + 3) = w.extractLsb' 0 8 := hb 3 (by omega)
  unfold getWord
  rw [h0, h1, h2, h3]
  exact w.ofBytes_bytes

theorem words_congr {m n : Memory} {a : Word} {k : Nat}
    (h : ∀ b, a.toNat ≤ b.toNat → b.toNat < a.toNat + 4 * k → m.getByte b = n.getByte b)
    (ha : a.toNat + 4 * k ≤ 0x100000000) : m.words a k = n.words a k := by
  induction k generalizing a with
  | zero => rfl
  | succ k ih =>
    have hw := getWord_congr (fun b h1 h2 => h b h1 (by omega)) (by omega)
    rw [words, words, hw]
    by_cases hk : k = 0
    · rw [hk]
      rfl
    · have hn : (a + 4).toNat = a.toNat + 4 := Word.toNat_add_ofNat a 4 (by omega)
      rw [ih (fun b h1 h2 => h b (by omega) (by omega)) (by omega)]

theorem length_flatMap_bytes (ws : List Word) : (ws.flatMap Word.bytes).length = 4 * ws.length := by
  induction ws with
  | nil => rfl
  | cons w ws ih =>
    rw [List.flatMap_cons, List.length_append, ih, List.length_cons]
    change 4 + 4 * ws.length = _
    omega

theorem words_setBytes (m : Memory) (a : Word) (ws : List Word) (h : a.toNat + 4 * ws.length ≤ 0x100000000) :
    (m.setBytes a (ws.flatMap Word.bytes)).words a ws.length = ws := by
  induction ws generalizing m a with
  | nil => rfl
  | cons w ws ih =>
    rw [List.length_cons] at h
    by_cases hk : ws = []
    · rw [hk]
      exact congrArg (· :: []) (getWord_setBytes m a w (by omega))
    · have hp : 0 < ws.length := List.length_pos_iff.mpr hk
      have hn : (a + 4).toNat = a.toNat + 4 := Word.toNat_add_ofNat a 4 (by omega)
      let rest : Store := (a + 4, ws.flatMap Word.bytes)
      have hr : rest.InRange := by
        change (a + 4).toNat + (ws.flatMap Word.bytes).length ≤ _
        rw [hn, length_flatMap_bytes]
        omega
      have he : m.setBytes a ((w :: ws).flatMap Word.bytes) =
          (m.setBytes a w.bytes).setBytes rest.1 rest.2 := by
        rw [List.flatMap_cons, setBytes_append]
        rfl
      have hw : ((m.setBytes a w.bytes).setBytes rest.1 rest.2).getWord a = w := by
        refine (getWord_congr ?_ (by omega)).trans (getWord_setBytes m a w (by omega))
        intro b h1 h2
        have hb : rest.byteAt b = none := if_neg (by change ¬ (a + 4).toNat ≤ _; omega)
        rw [getByte_setStore _ rest hr, hb, Option.getD_none]
      rw [he, List.length_cons, words, hw]
      exact congrArg (w :: ·) (ih (m.setBytes a w.bytes) (a + 4) (by omega))

def Holds (m : Memory) (s : Store) : Prop := ∀ a b, s.byteAt a = some b → m.getByte a = b

section Holds

variable {m n : Memory} {s : Store} {ts : List Store}

theorem holds_setBytes (m : Memory) (hs : s.InRange) : (m.setBytes s.1 s.2).Holds s := by
  intro a b h
  rw [getByte_setStore m s hs, h]
  rfl

theorem Holds.congr (h : m.Holds s) (hn : ∀ a, s.Covers a → n.getByte a = m.getByte a) : n.Holds s :=
  fun a b hb => (hn a (Store.covers_of_byteAt hb)).trans (h a b hb)

theorem Holds.setAll (h : m.Holds s) (hr : ∀ t ∈ ts, t.InRange) (ha : ∀ t ∈ ts, s.Apart t) :
    (m.setAll ts).Holds s := by
  apply h.congr
  intro a hc
  exact getByte_setAll_of_not_covers m ts a hr fun t ht => (ha t ht).not_covers hc

theorem holds_setAll (m : Memory) (hr : ∀ t ∈ ts, t.InRange) (hp : ts.Pairwise Store.Apart) (h : s ∈ ts) :
    (m.setAll ts).Holds s := by
  induction ts generalizing m with
  | nil => exact (List.not_mem_nil h).elim
  | cons t ts ih =>
    obtain ⟨hap, hps⟩ := List.pairwise_cons.mp hp
    have hrs : ∀ u ∈ ts, u.InRange := fun u hu => hr u (List.mem_cons_of_mem t hu)
    rcases List.mem_cons.mp h with rfl | h
    · exact (holds_setBytes m (hr s List.mem_cons_self)).setAll hrs hap
    · exact ih (m.setBytes t.1 t.2) hrs hps h

variable {a : Word} {b : Byte} {bs : List Byte}

theorem Holds.head (h : m.Holds (a, b :: bs)) : m.getByte a = b :=
  h a b (by simp [Store.byteAt])

theorem Holds.tail (h : m.Holds (a, b :: bs)) (hr : a.toNat + bs.length < 0x100000000) :
    m.Holds (a + 1, bs) := by
  intro x v hv
  obtain ⟨hle, hlt⟩ := Store.covers_of_byteAt hv
  change (a + 1).toNat ≤ x.toNat at hle
  change x.toNat < (a + 1).toNat + bs.length at hlt
  apply h x v
  unfold Store.byteAt at hv ⊢
  have hn : (a + 1).toNat = a.toNat + 1 := Word.toNat_add_ofNat a 1 (by omega)
  have hx : x.toNat - a.toNat = x.toNat - (a + 1).toNat + 1 := by omega
  rw [if_pos hle] at hv
  rw [if_pos (show a.toNat ≤ x.toNat by omega), hx]
  exact hv

theorem Holds.left {xs ys : List Byte} (h : m.Holds (a, xs ++ ys)) : m.Holds (a, xs) := by
  intro x v hv
  apply h x v
  unfold Store.byteAt at hv ⊢
  split
  case isTrue hle =>
    rw [if_pos hle] at hv
    obtain ⟨hlt, -⟩ := List.getElem?_eq_some_iff.mp hv
    rw [← hv]
    exact List.getElem?_append_left hlt
  case isFalse hle =>
    rw [if_neg hle] at hv
    cases hv

theorem Holds.right {xs ys : List Byte} (h : m.Holds (a, xs ++ ys))
    (hr : a.toNat + xs.length + ys.length < 0x100000000) : m.Holds (a + BitVec.ofNat 32 xs.length, ys) := by
  induction xs generalizing a with
  | nil =>
    rw [List.length_nil, BitVec.add_zero]
    exact h
  | cons x xs ih =>
    rw [List.length_cons] at hr ⊢
    have hn : (a + 1).toNat = a.toNat + 1 := Word.toNat_add_ofNat a 1 (by omega)
    have hlen : (xs ++ ys).length = xs.length + ys.length := List.length_append
    have htail : m.Holds (a + 1, xs ++ ys) := Holds.tail h (by omega)
    rw [Word.add_ofNat_succ]
    exact ih htail (by omega)

theorem Holds.bytes (h : m.Holds (a, bs)) (hr : a.toNat + bs.length < 0x100000000) :
    m.bytes a bs.length = bs := by
  induction bs generalizing a with
  | nil => rfl
  | cons b bs ih =>
    rw [List.length_cons] at hr ⊢
    have hn : (a + 1).toNat = a.toNat + 1 := Word.toNat_add_ofNat a 1 (by omega)
    rw [Memory.bytes, h.head, ih (h.tail (by omega)) (by omega)]

theorem Holds.words {ws : List Word} (h : m.Holds (a, ws.flatMap Word.bytes))
    (ha : a.toNat + 4 * ws.length ≤ 0x100000000) : m.words a ws.length = ws := by
  have hin : Store.InRange (a, ws.flatMap Word.bytes) := by
    change a.toNat + (ws.flatMap Word.bytes).length ≤ _
    rwa [length_flatMap_bytes]
  refine (words_congr (fun b _ _ => ?_) ha).trans (words_setBytes m a ws ha)
  rw [getByte_setStore m _ hin]
  cases hb : Store.byteAt (a, ws.flatMap Word.bytes) b with
  | none => rfl
  | some v => exact h b v hb

end Holds

theorem words_setAll_of_mem (m : Memory) {ss : List Store} (hr : ∀ s ∈ ss, s.InRange)
    (hp : ss.Pairwise Store.Apart) {a : Word} {ws : List Word} (h : (a, ws.flatMap Word.bytes) ∈ ss) :
    (m.setAll ss).words a ws.length = ws := by
  have hin : a.toNat + (ws.flatMap Word.bytes).length ≤ 0x100000000 := hr _ h
  rw [length_flatMap_bytes] at hin
  exact (holds_setAll m hr hp h).words hin

end Memory

end MipsMachine
