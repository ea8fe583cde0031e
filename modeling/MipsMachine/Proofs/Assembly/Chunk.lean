import MipsMachine.Assembly.Plan
import MipsMachine.Proofs.Assembly.Expansion
import MipsMachine.Proofs.Memory.Stores
import MipsMachine.Proofs.Traversal

/-!
What lines lay out, before labels are looked up: bytes that stand already, and references. A table of
labels turns every chunk into a store, and leaves the references without address pending.

Main statement: when one more label gets its address, the stores of the new table leave the same memory
as those of the old one with the pending references to that label rewritten afterwards.
-/

namespace MipsMachine

def Fixup.rewrite (target : Word) (f : Fixup) : Except AsmCause Store := do
  return (f.addr, (← f.patch.resolve f.addr target).flatMap Word.bytes)

def Fixup.stop (f : Fixup) : Nat := f.addr.toNat + 4 * f.patch.size

theorem Fixup.addr_lt_stop (f : Fixup) : f.addr.toNat < f.stop := by
  have := f.patch.size_pos
  unfold stop
  omega

theorem Fixup.filter_addr_eq {fs : List Fixup} {f : Fixup} (h : fs.Pairwise fun f g => f.stop ≤ g.addr.toNat)
    (hf : f ∈ fs) : fs.filter (·.addr = f.addr) = [f] := by
  induction fs with
  | nil => exact (List.not_mem_nil hf).elim
  | cons g fs ih =>
    obtain ⟨hg, hfs⟩ := List.pairwise_cons.mp h
    have hne : ∀ k ∈ fs, k.addr ≠ g.addr := by
      intro k hk he
      have := hg k hk
      have := g.addr_lt_stop
      rw [he] at *
      omega
    rcases List.mem_cons.mp hf with rfl | hf
    · rw [List.filter_cons_of_pos (by simp), List.filter_eq_nil_iff.mpr]
      intro k hk
      simpa using hne k hk
    · rw [List.filter_cons_of_neg (by simpa using Ne.symm (hne f hf))]
      exact ih hfs hf

theorem Fixup.shape_rewrite {f : Fixup} {target : Word} {s : Store} (h : f.rewrite target = .ok s) :
    s.1 = f.addr ∧ s.2.length = 4 * f.patch.size := by
  unfold rewrite at h
  cases hr : f.patch.resolve f.addr target with
  | error e => rw [hr] at h; cases h
  | ok ws =>
    rw [hr] at h
    cases h
    exact ⟨rfl, (Memory.length_flatMap_bytes ws).trans (congrArg _ (Patch.length_resolve hr))⟩

theorem Fixup.stop_rewrite {f : Fixup} {target : Word} {s : Store} (h : f.rewrite target = .ok s) :
    s.stop = f.stop := by
  obtain ⟨ha, hl⟩ := shape_rewrite h
  unfold Store.stop stop
  rw [ha, hl]

theorem Fixup.exists_of_mem_rewrites {fs : List Fixup} {p : String → Prop} [DecidablePred p] {target : Word}
    {stores : List Store} (h : (fs.filter (p ·.label)).mapM (rewrite target) = .ok stores) {t : Store}
    (ht : t ∈ stores) : ∃ f ∈ fs, p f.label ∧ f.rewrite target = .ok t := by
  obtain ⟨f, hf, hr⟩ := exists_of_mem_mapM h ht
  obtain ⟨hm, hp⟩ := List.mem_filter.mp hf
  exact ⟨f, hm, of_decide_eq_true hp, hr⟩

def LabelTable.define (table : LabelTable) (label : String) (addr : Word) : LabelTable :=
  fun name => if label = name then some addr else table name

inductive Chunk where
  | fixed (store : Store)
  | ref (fixup : Fixup)

namespace Chunk

def addr : Chunk → Word
  | fixed s => s.1
  | ref f => f.addr

def size : Chunk → Nat
  | fixed s => s.2.length
  | ref f => 4 * f.patch.size

def stop (c : Chunk) : Nat := c.addr.toNat + c.size

def InRange (c : Chunk) : Prop := c.stop ≤ 0x100000000

def Apart (c d : Chunk) : Prop := c.stop ≤ d.addr.toNat ∨ d.stop ≤ c.addr.toNat

def store (table : LabelTable) : Chunk → Except AsmCause Store
  | fixed s => .ok s
  | ref f =>
    match table f.label with
    | none => .ok (f.addr, f.patch.placeholder.flatMap Word.bytes)
    | some target => f.rewrite target

def pending (table : LabelTable) : Chunk → Option Fixup
  | fixed _ => none
  | ref f => if table f.label = none then some f else none

theorem shape_store {table : LabelTable} {c : Chunk} {s : Store} (h : c.store table = .ok s) :
    s.1 = c.addr ∧ s.2.length = c.size := by
  cases c with
  | fixed t => cases h; exact ⟨rfl, rfl⟩
  | ref f =>
    rw [store] at h
    cases ht : table f.label with
    | some target => rw [ht] at h; exact Fixup.shape_rewrite h
    | none =>
      rw [ht] at h
      cases h
      exact ⟨rfl, (Memory.length_flatMap_bytes _).trans (congrArg _ f.patch.length_placeholder)⟩

theorem stop_store {table : LabelTable} {c : Chunk} {s : Store} (h : c.store table = .ok s) :
    s.stop = c.stop := by
  obtain ⟨ha, hl⟩ := shape_store h
  unfold Store.stop stop
  rw [ha, hl]

theorem inRange_store {table : LabelTable} {c : Chunk} {s : Store} (hc : c.InRange)
    (h : c.store table = .ok s) : s.InRange := by
  unfold InRange at hc
  unfold Store.InRange
  rwa [stop_store h]

theorem apart_store {table table' : LabelTable} {c d : Chunk} {s t : Store} (h : c.Apart d)
    (hs : c.store table = .ok s) (ht : d.store table' = .ok t) : s.Apart t := by
  unfold Apart at h
  unfold Store.Apart
  rwa [stop_store hs, stop_store ht, (shape_store hs).1, (shape_store ht).1]

theorem pairwise_stores {table : LabelTable} {cs : List Chunk} {stores : List Store} (hp : cs.Pairwise Apart)
    (hs : cs.mapM (store table) = .ok stores) : stores.Pairwise Store.Apart := by
  rw [mapM_eq_ok_iff] at hs
  induction hs with
  | nil => exact .nil
  | cons hc hs ih =>
    obtain ⟨hac, hacs⟩ := List.pairwise_cons.mp hp
    refine List.pairwise_cons.mpr ⟨fun t ht => ?_, ih hacs⟩
    obtain ⟨d, hd, he⟩ := exists_of_mem_mapM (mapM_eq_ok_iff.mpr hs) ht
    exact apart_store (hac d hd) hc he

theorem pending_eq_some_iff {table : LabelTable} {c : Chunk} {f : Fixup} :
    c.pending table = some f ↔ c = ref f ∧ table f.label = none := by
  cases c with
  | fixed s => exact ⟨fun h => (nomatch h), fun h => (nomatch h.1)⟩
  | ref g =>
    rw [pending, ref.injEq]
    by_cases hg : table g.label = none
    · rw [if_pos hg, Option.some.injEq]
      exact ⟨fun h => ⟨h, h ▸ hg⟩, And.left⟩
    · rw [if_neg hg]
      exact ⟨fun h => (nomatch h), fun ⟨he, hf⟩ => (hg (he ▸ hf)).elim⟩

theorem mem_pending {table : LabelTable} {cs : List Chunk} {f : Fixup} :
    f ∈ cs.filterMap (pending table) ↔ ref f ∈ cs ∧ table f.label = none := by
  rw [List.mem_filterMap]
  constructor
  · rintro ⟨c, hc, hp⟩
    obtain ⟨rfl, ht⟩ := pending_eq_some_iff.mp hp
    exact ⟨hc, ht⟩
  · rintro ⟨hc, ht⟩
    exact ⟨_, hc, pending_eq_some_iff.mpr ⟨rfl, ht⟩⟩

theorem filterMap_pending_define (table : LabelTable) (label : String) (target : Word) (cs : List Chunk) :
    cs.filterMap (pending (table.define label target)) =
      (cs.filterMap (pending table)).filter (·.label ≠ label) := by
  rw [List.filter_filterMap]
  congr 1
  funext c
  cases c with
  | fixed s => rfl
  | ref f =>
    rw [pending, pending, LabelTable.define]
    by_cases hl : label = f.label
    · by_cases ht : table f.label = none <;> simp [ht, hl, Option.filter]
    · by_cases ht : table f.label = none <;> simp [ht, hl, Ne.symm hl, Option.filter]

theorem store_define_self (table : LabelTable) (target : Word) (f : Fixup) :
    (ref f).store (table.define f.label target) = f.rewrite target := by
  rw [store, LabelTable.define, if_pos rfl]

theorem store_define_of_ne {table : LabelTable} {label : String} (hl : table label = none) (target : Word)
    {c : Chunk} (hc : ∀ f, c.pending table = some f → f.label ≠ label) :
    c.store (table.define label target) = c.store table := by
  cases c with
  | fixed s => rfl
  | ref f =>
    have hn : label ≠ f.label := by
      rintro rfl
      exact hc f (pending_eq_some_iff.mpr ⟨rfl, hl⟩) rfl
    rw [store, store, LabelTable.define, if_neg hn]

section Define

variable {table : LabelTable} {label : String} {target : Word} {cs : List Chunk} {stores : List Store}

theorem exists_stores_define (hl : table label = none) (hs : cs.mapM (store table) = .ok stores) :
    (∃ stores', cs.mapM (store (table.define label target)) = .ok stores') ↔
      ∃ rewrites, ((cs.filterMap (pending table)).filter (·.label = label)).mapM (Fixup.rewrite target) =
        .ok rewrites := by
  rw [exists_mapM_eq_ok_iff, exists_mapM_eq_ok_iff]
  constructor
  · intro h f hf
    obtain ⟨hm, he⟩ := List.mem_filter.mp hf
    obtain rfl : f.label = label := of_decide_eq_true he
    obtain ⟨s, hs⟩ := h _ (mem_pending.mp hm).1
    exact ⟨s, (store_define_self table target f).symm.trans hs⟩
  · intro h c hc
    by_cases hp : ∀ f, c.pending table = some f → f.label ≠ label
    · rw [store_define_of_ne hl target hp]
      exact exists_mapM_eq_ok_iff.mp ⟨stores, hs⟩ c hc
    · push Not at hp
      obtain ⟨f, hf, rfl⟩ := hp
      obtain ⟨rfl, -⟩ := pending_eq_some_iff.mp hf
      rw [store_define_self]
      exact h f (List.mem_filter.mpr ⟨mem_pending.mpr ⟨hc, hl⟩, decide_eq_true rfl⟩)

theorem exists_stores_of_define (hl : table label = none)
    (hs : cs.mapM (store (table.define label target)) = .ok stores) :
    ∃ stores', cs.mapM (store table) = .ok stores' := by
  rw [exists_mapM_eq_ok_iff]
  intro c hc
  by_cases hp : ∀ f, c.pending table = some f → f.label ≠ label
  · rw [← store_define_of_ne hl target hp]
    exact exists_mapM_eq_ok_iff.mp ⟨stores, hs⟩ c hc
  · push Not at hp
    obtain ⟨f, hf, rfl⟩ := hp
    obtain ⟨rfl, -⟩ := pending_eq_some_iff.mp hf
    rw [store, hl]
    exact ⟨_, rfl⟩

theorem getByte_setAll_define (hl : table label = none) (hr : ∀ c ∈ cs, c.InRange)
    (ha : cs.Pairwise Apart) (hs : cs.mapM (store table) = .ok stores) {stores' rewrites : List Store}
    (hs' : cs.mapM (store (table.define label target)) = .ok stores')
    (hw : ((cs.filterMap (pending table)).filter (·.label = label)).mapM (Fixup.rewrite target) =
      .ok rewrites) (m : Memory) : (m.setAll stores').getByte = ((m.setAll stores).setAll rewrites).getByte := by
  -- the rewrite of a pending reference moves past the chunks after it, to the place of its placeholder
  rw [mapM_eq_ok_iff] at hs
  induction hs generalizing m stores' rewrites with
  | nil =>
    cases hs'
    cases hw
    rfl
  | @cons c s cs stores hc hs ih =>
    obtain ⟨hrc, hrcs⟩ := List.forall_mem_cons.mp hr
    obtain ⟨hac, hacs⟩ := List.pairwise_cons.mp ha
    obtain ⟨s', rest, hc', hrest, rfl⟩ := List.forall₂_cons_left_iff.mp (mapM_eq_ok_iff.mp hs')
    by_cases hp : ∀ f, c.pending table = some f → f.label ≠ label
    · rw [store_define_of_ne hl target hp, hc] at hc'
      cases hc'
      have he : ((c :: cs).filterMap (pending table)).filter (·.label = label) =
          (cs.filterMap (pending table)).filter (·.label = label) := by
        cases hq : c.pending table with
        | none => rw [List.filterMap_cons_none hq]
        | some f => rw [List.filterMap_cons_some hq, List.filter_cons_of_neg (by simpa using hp f hq)]
      rw [he] at hw
      exact ih hrcs hacs (mapM_eq_ok_iff.mpr hrest) hw (m.setBytes s.1 s.2)
    · push Not at hp
      obtain ⟨f, hf, rfl⟩ := hp
      obtain ⟨rfl, -⟩ := pending_eq_some_iff.mp hf
      rw [List.filterMap_cons_some hf, List.filter_cons_of_pos (by simp), mapM_eq_ok_iff] at hw
      obtain ⟨r, ws, hfr, hws, rfl⟩ := List.forall₂_cons_left_iff.mp hw
      obtain rfl : s' = r := Except.ok.inj (hc'.symm.trans ((store_define_self table target f).trans hfr))
      have hin := inRange_store hrc hc'
      have hst : ∀ t ∈ stores, t.InRange ∧ s'.Apart t := by
        intro t ht
        obtain ⟨d, hd, he⟩ := exists_of_mem_mapM (mapM_eq_ok_iff.mpr hs) ht
        exact ⟨inRange_store (hrcs d hd) he, apart_store (hac d hd) hc' he⟩
      have hwr : ∀ t ∈ ws, t.InRange := by
        intro t ht
        obtain ⟨g, hg, he⟩ := exists_of_mem_mapM (mapM_eq_ok_iff.mpr hws) ht
        unfold Store.InRange
        rw [Fixup.stop_rewrite he]
        exact hrcs _ (mem_pending.mp (List.mem_filter.mp hg).1).1
      have hshape : s.1 = s'.1 ∧ s.2.length = s'.2.length := by
        obtain ⟨h1, h2⟩ := shape_store hc
        obtain ⟨h3, h4⟩ := shape_store hc'
        exact ⟨h1.trans h3.symm, h2.trans h4.symm⟩
      calc ((m.setBytes s'.1 s'.2).setAll rest).getByte
        _ = (((m.setBytes s'.1 s'.2).setAll stores).setAll ws).getByte :=
          ih hrcs hacs (mapM_eq_ok_iff.mpr hrest) (mapM_eq_ok_iff.mpr hws) _
        _ = ((((m.setBytes s.1 s.2).setBytes s'.1 s'.2).setAll stores).setAll ws).getByte := by
          apply Memory.setAll_congr _ _ hwr
          apply Memory.setAll_congr _ _ (fun t ht => (hst t ht).1)
          exact (Memory.setBytes_overwrite m hshape.1 hshape.2 hin).symm
        _ = ((((m.setBytes s.1 s.2).setAll stores).setBytes s'.1 s'.2).setAll ws).getByte := by
          apply Memory.setAll_congr _ _ hwr
          exact Memory.setAll_setBytes_comm _ s' stores hin (fun t ht => (hst t ht).1)
            (fun t ht => (hst t ht).2)

end Define

end Chunk

end MipsMachine
