import MipsMachine.Proofs.Symbols.Ledger

namespace MipsMachine.Symbols

section Order

variable {a b c : String × Word}

theorem listedBefore_iff : listedBefore a b = true ↔ a.2 < b.2 ∨ a.2 = b.2 ∧ a.1 ≤ b.1 := by
  simp [listedBefore]

theorem listedBefore_trans (hab : listedBefore a b = true) (hbc : listedBefore b c = true) :
    listedBefore a c = true := by
  rw [listedBefore_iff] at *
  rcases hab with hab | ⟨hab, hn⟩
  · rcases hbc with hbc | ⟨hbc, -⟩
    · exact .inl (BitVec.lt_trans hab hbc)
    · exact .inl (hbc ▸ hab)
  · rw [hab]
    exact hbc.imp_right fun hbc => ⟨hbc.1, String.le_trans hn hbc.2⟩

theorem listedBefore_total (a b : String × Word) : (listedBefore a b || listedBefore b a) = true := by
  rw [Bool.or_eq_true, listedBefore_iff, listedBefore_iff]
  rcases BitVec.lt_trichotomy a.2 b.2 with hlt | he | hgt
  · exact .inl (.inl hlt)
  · exact (String.le_total a.1 b.1).imp (fun hn => .inr ⟨he, hn⟩) fun hn => .inr ⟨he.symm, hn⟩
  · exact .inr (.inl hgt)

theorem listedBefore_antisymm (hab : listedBefore a b = true) (hba : listedBefore b a = true) : a = b := by
  rw [listedBefore_iff] at hab hba
  rcases hab with hab | ⟨he, hn⟩
  · rcases hba with hba | ⟨he, -⟩
    · exact absurd hba (BitVec.lt_asymm hab)
    · exact absurd he (BitVec.ne_of_lt hab).symm
  · rcases hba with hba | ⟨-, hm⟩
    · exact absurd he (BitVec.ne_of_lt hba).symm
    · exact Prod.ext (String.le_antisymm hn hm) he

def Precedes (a b : String × Word) : Prop := a.2 < b.2 ∨ a.2 = b.2 ∧ a.1 < b.1

theorem precedes_of_listedBefore (h : listedBefore a b = true) (hn : a.1 ≠ b.1) : Precedes a b :=
  (listedBefore_iff.mp h).imp_right fun ⟨he, hle⟩ =>
    ⟨he, String.not_le.mp fun hge => hn (String.le_antisymm hle hge)⟩

theorem listedBefore_of_precedes (h : Precedes a b) : listedBefore a b = true :=
  listedBefore_iff.mpr (h.imp_right fun ⟨he, hlt⟩ => ⟨he, String.not_lt.mp (String.lt_asymm hlt)⟩)

theorem ne_of_precedes (h : Precedes a b) : a ≠ b := by
  rintro rfl
  rcases h with h | ⟨-, h⟩
  · exact BitVec.lt_irrefl _ h
  · exact String.lt_irrefl _ h

end Order

section Entries

variable {entries others : List (String × Word)} {labels : String → Option Word}

theorem pairwise_mergeSort (entries : List (String × Word)) :
    (entries.mergeSort listedBefore).Pairwise fun a b => listedBefore a b = true :=
  List.pairwise_mergeSort (@listedBefore_trans) listedBefore_total entries

theorem mergeSort_of_perm (h : entries.Perm others) :
    entries.mergeSort listedBefore = others.mergeSort listedBefore := by
  have hp : (entries.mergeSort listedBefore).Perm (others.mergeSort listedBefore) :=
    (List.mergeSort_perm entries _).trans (h.trans (List.mergeSort_perm others _).symm)
  exact hp.eq_of_pairwise (fun _ _ _ _ => listedBefore_antisymm) (pairwise_mergeSort entries)
    (pairwise_mergeSort others)

theorem least_right_comm (best : Option String) (m n : String) :
    least (least best m) n = least (least best n) m := by
  cases best with
  | none => grind [least]
  | some b => grind [least]

theorem foldl_least_of_forall_le {name : String} {names : List String} (h : ∀ n ∈ names, name ≤ n) :
    names.foldl least (some name) = some name := by
  induction names with
  | nil => rfl
  | cons n names ih =>
    have hn : name ≤ n := h n List.mem_cons_self
    have hl : least (some name) n = some name := congrArg some (if_neg (String.not_lt.mpr hn))
    rw [List.foldl_cons, hl]
    exact ih fun k hk => h k (List.mem_cons_of_mem n hk)

theorem foldl_least_of_pairwise {names : List String} (h : names.Pairwise (· ≤ ·)) :
    names.foldl least none = names.head? := by
  cases h with
  | nil => rfl
  | cons hle _ => exact foldl_least_of_forall_le hle

theorem foldl_least_filter (entries : List (String × Word)) (addr : Word) :
    ((entries.filter fun l => l.2 = addr).map Prod.fst).foldl least none =
      ((entries.mergeSort listedBefore).find? fun l => l.2 = addr).map Prod.fst := by
  have hp := ((List.mergeSort_perm entries listedBefore).filter fun l => l.2 = addr).map Prod.fst
  -- Of entries that share their address, the order is that of the names alone.
  have hs : (((entries.mergeSort listedBefore).filter fun l => l.2 = addr).map Prod.fst).Pairwise (· ≤ ·) := by
    rw [List.pairwise_map, List.pairwise_filter]
    refine (pairwise_mergeSort entries).imp fun {a b} hab ha hb => ?_
    have he : a.2 = b.2 := (of_decide_eq_true ha).trans (of_decide_eq_true hb).symm
    rcases listedBefore_iff.mp hab with hlt | ⟨-, hle⟩
    · exact absurd he (BitVec.ne_of_lt hlt)
    · exact hle
  rw [← hp.foldl_eq' fun m _ n _ best => least_right_comm best m n, foldl_least_of_pairwise hs,
    List.head?_map, List.head?_filter]

structure Lists (entries : List (String × Word)) (labels : String → Option Word) : Prop where
  mem_iff : ∀ name addr, (name, addr) ∈ entries ↔ labels name = some addr
  names_nodup : (entries.map Prod.fst).Nodup
  increasing : entries.Pairwise Precedes

theorem Lists.unique (h : Lists entries labels) (ho : Lists others labels) : entries = others := by
  have hn : entries.Nodup := h.increasing.imp ne_of_precedes
  have hno : others.Nodup := ho.increasing.imp ne_of_precedes
  have hp : entries.Perm others := (List.perm_ext_iff_of_nodup hn hno).mpr fun l =>
    (h.mem_iff l.1 l.2).trans (ho.mem_iff l.1 l.2).symm
  exact hp.eq_of_pairwise (fun _ _ _ _ => listedBefore_antisymm) (h.increasing.imp listedBefore_of_precedes)
    (ho.increasing.imp listedBefore_of_precedes)

end Entries

theorem lists_labelList {s : Symbols} {labels : String → Option Word}
    (h : ∀ name, s.lookup name = labels name) : Lists s.labelList labels := by
  have hp : s.labelList.Perm s.labels.toList := List.mergeSort_perm _ _
  have hn : s.labelList.Pairwise fun a b => a.1 ≠ b.1 :=
    hp.symm.pairwise (s.labels.distinct_keys_toList.imp ne_of_beq_false) Ne.symm
  refine ⟨fun name addr => ?_, List.pairwise_map.mpr hn, ?_⟩
  · rw [hp.mem_iff, Std.HashMap.mem_toList_iff_getElem?_eq_some, ← h]
    rfl
  · exact ((pairwise_mergeSort _).and hn).imp fun hb => precedes_of_listedBefore hb.1 hb.2

theorem labelAt_eq_find? (s : Symbols) (addr : Word) :
    s.labelAt addr = (s.labelList.find? fun l => l.2 = addr).map Prod.fst :=
  foldl_least_filter s.labels.toList addr

/-- The symbols list these labels and find them by address, and no order of the table is to be seen in it. -/
structure Answers (s : Symbols) (labels : String → Option Word) : Prop where
  lists : Lists s.labelList labels
  labelAt_eq : ∀ addr, s.labelAt addr = (s.labelList.find? fun l => l.2 = addr).map Prod.fst
  labelAt_eq_none : ∀ addr, s.labelAt addr = none ↔ ∀ name, labels name ≠ some addr
  traversal : ∀ entries : List (String × Word), entries.Perm s.labels.toList →
    entries.mergeSort listedBefore = s.labelList ∧
      ∀ addr, ((entries.filter fun l => l.2 = addr).map Prod.fst).foldl least none = s.labelAt addr
  history : ∀ t : Symbols, (∀ name, t.lookup name = labels name) →
    t.labelList = s.labelList ∧ ∀ addr, t.labelAt addr = s.labelAt addr

theorem answers_replay (ops : List SymbolOp) : (replay ops).Answers (Ledger.replay ops).labels := by
  have hl : Lists (replay ops).labelList (Ledger.replay ops).labels :=
    lists_labelList (Tracks.empty.foldl ops).lookup
  refine ⟨hl, labelAt_eq_find? _, fun addr => ?_, fun entries he => ?_, fun t ht => ?_⟩
  · rw [labelAt_eq_find?, Option.map_eq_none_iff, List.find?_eq_none]
    constructor
    · intro h name hn
      exact h (name, addr) ((hl.mem_iff name addr).mpr hn) (decide_eq_true rfl)
    · rintro h ⟨name, a⟩ hm ha
      exact h name ((hl.mem_iff name addr).mp (of_decide_eq_true ha ▸ hm))
  · have hs : entries.mergeSort listedBefore = (replay ops).labelList := mergeSort_of_perm he
    refine ⟨hs, fun addr => ?_⟩
    rw [foldl_least_filter, hs, labelAt_eq_find?]
  · have hs : t.labelList = (replay ops).labelList := (lists_labelList ht).unique hl
    refine ⟨hs, fun addr => ?_⟩
    rw [labelAt_eq_find?, labelAt_eq_find?, hs]

end MipsMachine.Symbols
