import MipsMachine.Symbols
import Mathlib.Data.List.Basic
import Mathlib.Data.List.Induction

namespace MipsMachine.Symbols

def positions (slots : List (Option Fixup)) (label : String) : List Nat :=
  (List.range slots.length).filter fun i => slots[i]?.join.any (·.label = label)

structure Indexed (s : Symbols) : Prop where
  getD_waiting : ∀ label, s.waiting.getD label [] = positions s.arena.toList label
  ne_nil : ∀ label : String, s.waiting[label]? ≠ some []

def vacate (label : String) (slot : Option Fixup) : Option Fixup :=
  if slot.any (·.label = label) then none else slot

theorem positions_append_singleton (slots : List (Option Fixup)) (x : Option Fixup) (label : String) :
    positions (slots ++ [x]) label =
      positions slots label ++ if x.any (·.label = label) then [slots.length] else [] := by
  unfold positions
  rw [List.length_append, List.length_singleton, List.range_succ, List.filter_append]
  congr 1
  · apply List.filter_congr
    intro i hi
    rw [List.getElem?_append_left (List.mem_range.mp hi)]
  · cases h : x.any (·.label = label) <;> simp [h]

theorem positions_nil (label : String) : positions [] label = [] := rfl

theorem filterMap_positions (slots : List (Option Fixup)) (label : String) :
    (positions slots label).filterMap (fun i => slots[i]?.join) =
      (slots.filterMap id).filter (·.label = label) := by
  induction slots using List.reverseRecOn with
  | nil => rfl
  | append_singleton slots x ih =>
    have hl : (positions slots label).filterMap (fun i => (slots ++ [x])[i]?.join) =
        (positions slots label).filterMap (fun i => slots[i]?.join) := by
      apply List.filterMap_congr
      intro i hi
      have hi : i < slots.length := List.mem_range.mp (List.mem_filter.mp hi).1
      rw [List.getElem?_append_left hi]
    rw [positions_append_singleton, List.filterMap_append, List.filterMap_append, List.filter_append, hl, ih]
    congr 1
    cases x with
    | none => rfl
    | some f => by_cases hf : f.label = label <;> simp [hf]

theorem mem_positions {slots : List (Option Fixup)} {label : String} {i : Nat} :
    i ∈ positions slots label ↔ ∃ f, slots[i]? = some (some f) ∧ f.label = label := by
  unfold positions
  rw [List.mem_filter, List.mem_range]
  constructor
  · rintro ⟨hi, h⟩
    obtain ⟨f, hf, he⟩ := (Option.any_eq_true _ _).mp h
    rw [Option.join_eq_some_iff] at hf
    exact ⟨f, hf, of_decide_eq_true he⟩
  · rintro ⟨f, hf, he⟩
    refine ⟨(List.getElem?_eq_some_iff.mp hf).1, ?_⟩
    simp [hf, he]

theorem positions_ne_nil {slots : List (Option Fixup)} {f : Fixup} (h : some f ∈ slots) :
    positions slots f.label ≠ [] := by
  obtain ⟨i, hi⟩ := List.mem_iff_getElem?.mp h
  exact List.ne_nil_of_mem (mem_positions.mpr ⟨f, hi, rfl⟩)

theorem positions_vacate (slots : List (Option Fixup)) (label k : String) :
    positions (slots.map (vacate label)) k = if label = k then [] else positions slots k := by
  induction slots using List.reverseRecOn with
  | nil => simp [positions_nil]
  | append_singleton slots x ih =>
    rw [List.map_append, List.map_singleton, positions_append_singleton, ih, positions_append_singleton,
      List.length_map]
    cases x with
    | none => by_cases hk : label = k <;> simp [hk, vacate]
    | some f =>
      by_cases hk : label = k
      · by_cases hf : f.label = k <;> simp [hk, hf, vacate]
      · by_cases hf : f.label = label
        · simp [hk, hf, vacate]
        · simp [hk, hf, vacate]

theorem filterMap_vacate (slots : List (Option Fixup)) (label : String) :
    (slots.map (vacate label)).filterMap id = (slots.filterMap id).filter (·.label ≠ label) := by
  induction slots with
  | nil => rfl
  | cons x slots ih =>
    cases x with
    | none => simpa [vacate] using ih
    | some f => by_cases hf : f.label = label <;> simpa [hf, vacate] using ih

theorem getElem?_foldl_setIfInBounds (is : List Nat) (a : Array (Option Fixup)) (j : Nat) :
    (is.foldl (fun a i => a.setIfInBounds i none) a)[j]? =
      if j ∈ is then (if j < a.size then some none else none) else a[j]? := by
  induction is generalizing a with
  | nil => simp
  | cons i is ih =>
    rw [List.foldl_cons, ih, Array.size_setIfInBounds, Array.getElem?_setIfInBounds]
    by_cases hi : j ∈ is
    · simp [hi]
    · by_cases hj : i = j
      · simp [hj]
      · simp [hi, hj, Ne.symm hj]

theorem toList_foldl_positions (a : Array (Option Fixup)) (label : String) :
    ((positions a.toList label).foldl (fun a i => a.setIfInBounds i none) a).toList =
      a.toList.map (vacate label) := by
  apply List.ext_getElem?
  intro j
  rw [Array.getElem?_toList, getElem?_foldl_setIfInBounds, List.getElem?_map, Array.getElem?_toList]
  by_cases hj : j ∈ positions a.toList label
  · obtain ⟨f, hf, he⟩ := mem_positions.mp hj
    rw [Array.getElem?_toList] at hf
    have hs : j < a.size := (Array.getElem?_eq_some_iff.mp hf).1
    rw [if_pos hj, if_pos hs, hf]
    simp [he, vacate]
  · rw [if_neg hj]
    cases hs : a[j]? with
    | none => rfl
    | some x =>
      cases x with
      | none => rfl
      | some f =>
        have hf : f.label ≠ label := fun he => hj (mem_positions.mpr ⟨f, by simpa using hs, he⟩)
        simp [vacate, hf]

theorem waitingOn_eq {s : Symbols} (h : s.Indexed) (label : String) :
    s.waitingOn label = s.fixups.filter (·.label = label) := by
  unfold waitingOn fixups
  rw [h.getD_waiting, ← filterMap_positions]
  simp only [Array.getElem?_toList]

theorem label_mem_waiting {s : Symbols} (h : s.Indexed) {f : Fixup} (hf : f ∈ s.fixups) :
    f.label ∈ s.waiting := by
  by_contra hm
  obtain ⟨x, hx, rfl⟩ := List.mem_filterMap.mp hf
  have hp := positions_ne_nil hx
  rw [← h.getD_waiting] at hp
  exact hp (Std.HashMap.getD_eq_fallback hm)

theorem hasUnresolved_iff {s : Symbols} (h : s.Indexed) : s.hasUnresolved = true ↔ s.fixups ≠ [] := by
  unfold hasUnresolved
  rw [Bool.not_eq_true', Std.HashMap.isEmpty_eq_false_iff_exists_mem]
  constructor
  · rintro ⟨label, hl⟩
    obtain ⟨is, his⟩ := Std.HashMap.mem_iff_isSome_getElem?.mp hl |> Option.isSome_iff_exists.mp
    have hn : positions s.arena.toList label ≠ [] := by
      rw [← h.getD_waiting, Std.HashMap.getD_eq_getD_getElem?, his]
      exact fun he => h.ne_nil label (his.trans (congrArg some he))
    obtain ⟨i, hi⟩ := List.exists_mem_of_ne_nil _ hn
    obtain ⟨f, hf, -⟩ := mem_positions.mp hi
    exact List.ne_nil_of_mem (List.mem_filterMap.mpr ⟨some f, List.mem_of_getElem? hf, rfl⟩)
  · intro hn
    obtain ⟨f, hf⟩ := List.exists_mem_of_ne_nil _ hn
    exact ⟨f.label, label_mem_waiting h hf⟩

theorem release_of_isEmpty (s : Symbols) {label : String} (h : (s.waiting.erase label).isEmpty = true) :
    s.release label = ⟨s.labels, #[], s.waiting.erase label⟩ := if_pos h

theorem toList_arena_release {s : Symbols} (h : s.Indexed) {label : String}
    (he : (s.waiting.erase label).isEmpty ≠ true) :
    (s.release label).arena.toList = s.arena.toList.map (vacate label) := by
  unfold release
  rw [if_neg he, h.getD_waiting]
  exact toList_foldl_positions s.arena label

theorem label_of_isEmpty_erase {s : Symbols} (h : s.Indexed) {label : String}
    (he : (s.waiting.erase label).isEmpty = true) {f : Fixup} (hf : f ∈ s.fixups) : f.label = label := by
  by_contra hn
  apply Std.HashMap.isEmpty_iff_forall_not_mem.mp he f.label
  exact Std.HashMap.mem_erase.mpr ⟨beq_false_of_ne (Ne.symm hn), label_mem_waiting h hf⟩

theorem fixups_release {s : Symbols} (h : s.Indexed) (label : String) :
    (s.release label).fixups = s.fixups.filter (·.label ≠ label) := by
  by_cases he : (s.waiting.erase label).isEmpty = true
  · rw [release_of_isEmpty s he, eq_comm, List.filter_eq_nil_iff.mpr]
    · rfl
    · intro f hf
      simp [label_of_isEmpty_erase h he hf]
  · unfold fixups
    rw [toList_arena_release h he, filterMap_vacate]

theorem lookup_empty (label : String) : empty.lookup label = none := by
  simp [lookup, empty]

theorem waitingOn_empty (label : String) : empty.waitingOn label = [] := by
  simp [waitingOn, empty]

theorem indexed_empty : empty.Indexed where
  getD_waiting label := by simp [empty, positions_nil]
  ne_nil label := by simp [empty]

theorem indexed_clearFixups (s : Symbols) : s.clearFixups.Indexed where
  getD_waiting label := by simp [clearFixups, positions_nil]
  ne_nil label := by simp [clearFixups]

theorem Indexed.record {s : Symbols} (h : s.Indexed) (f : Fixup) : (s.record f).Indexed where
  getD_waiting label := by
    unfold Symbols.record
    rw [Array.toList_push, positions_append_singleton, Std.HashMap.getD_insert, h.getD_waiting]
    by_cases hl : f.label = label
    · simp [hl]
    · simp [hl, h.getD_waiting]
  ne_nil label := by
    unfold Symbols.record
    rw [Std.HashMap.getElem?_insert]
    by_cases hl : f.label = label
    · simp [hl]
    · simpa [hl] using h.ne_nil label

theorem Indexed.release {s : Symbols} (h : s.Indexed) (label : String) : (s.release label).Indexed := by
  by_cases he : (s.waiting.erase label).isEmpty = true
  · rw [release_of_isEmpty s he]
    have hm := Std.HashMap.isEmpty_iff_forall_not_mem.mp he
    refine ⟨fun k => Std.HashMap.getD_eq_fallback (hm k), fun k => ?_⟩
    change (s.waiting.erase label)[k]? ≠ _
    rw [Std.HashMap.getElem?_eq_none (hm k)]
    simp
  · have hw : (s.release label).waiting = s.waiting.erase label := by
      rw [Symbols.release, if_neg he]
    constructor
    · intro k
      rw [hw, toList_arena_release h he, positions_vacate, Std.HashMap.getD_erase, h.getD_waiting]
      simp only [beq_iff_eq]
    · intro k
      rw [hw, Std.HashMap.getElem?_erase]
      by_cases hk : label = k
      · simp [hk]
      · simpa [hk] using h.ne_nil k

theorem Indexed.define {s : Symbols} (h : s.Indexed) (label : String) (addr : Word) :
    (s.define label addr).Indexed := by
  have hr := h.release label
  exact ⟨hr.getD_waiting, hr.ne_nil⟩

theorem fixups_define {s : Symbols} (h : s.Indexed) (label : String) (addr : Word) :
    (s.define label addr).fixups = s.fixups.filter (·.label ≠ label) := fixups_release h label

theorem lookup_foldl_record (fs : List Fixup) (symbols : Symbols) (name : String) :
    (fs.foldl record symbols).lookup name = symbols.lookup name := by
  induction fs generalizing symbols with
  | nil => rfl
  | cons f fs ih => exact ih (symbols.record f)

theorem fixups_foldl_record (fs : List Fixup) (symbols : Symbols) :
    (fs.foldl record symbols).fixups = symbols.fixups ++ fs := by
  induction fs generalizing symbols with
  | nil => exact (List.append_nil _).symm
  | cons f fs ih => rw [List.foldl_cons, ih, fixups_record, List.append_assoc]; rfl

theorem indexed_foldl_record (fs : List Fixup) {symbols : Symbols} (h : symbols.Indexed) :
    (fs.foldl record symbols).Indexed := by
  induction fs generalizing symbols with
  | nil => exact h
  | cons f fs ih => exact ih (h.record f)

end MipsMachine.Symbols
