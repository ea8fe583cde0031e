import MipsMachine.Proofs.Assembly.ForwardReference

namespace MipsMachine.Machine

section Define

variable {m : Machine} {label other : String}

theorem define_eq (m : Machine) (label : String) (addr : Word) :
    m.define label addr =
      match m.resolutions label addr with
      | .ok rewrites => (.ok (), m.defined label addr rewrites)
      | .error e => (.error e.spanless, m) := by
  unfold Machine.define planLabel
  cases m.resolutions label addr <;> rfl

theorem resolutions_defined (h : m.symbols.Indexed) (hne : other ≠ label) (target addr : Word)
    (rewrites : List Store) :
    (m.defined other target rewrites).resolutions label addr = m.resolutions label addr := by
  have hl : (m.symbols.define other target).lookup label = m.symbols.lookup label := by
    rw [Symbols.lookup_define, if_neg hne]
  have hw : (m.symbols.define other target).waitingOn label = m.symbols.waitingOn label := by
    rw [Symbols.waitingOn_eq (h.define other target), Symbols.waitingOn_eq h, Symbols.fixups_define h,
      List.filter_filter]
    apply List.filter_congr
    intro f _
    by_cases hf : f.label = label
    · simp [hf, Ne.symm hne]
    · simp [hf]
  unfold resolutions defined
  simp only [hl, hw]

theorem resolutions_define (h : m.symbols.Indexed) (hne : other ≠ label) (target addr : Word) :
    (m.define other target).2.resolutions label addr = m.resolutions label addr := by
  rw [define_eq]
  cases m.resolutions other target with
  | error e => rfl
  | ok rewrites => exact resolutions_defined h hne target addr rewrites

theorem exists_fixup_of_mem_resolutions (h : m.symbols.Indexed) {addr : Word} {stores : List Store}
    (hr : m.resolutions label addr = .ok stores) {t : Store} (ht : t ∈ stores) :
    ∃ f ∈ m.symbols.fixups, f.label = label ∧ (Chunk.ref f).store (fun _ => some addr) = .ok t := by
  unfold resolutions at hr
  split at hr
  case isTrue => cases hr
  case isFalse =>
    rw [Symbols.waitingOn_eq h] at hr
    exact Fixup.exists_of_mem_rewrites (p := (· = label)) hr ht

theorem inRange_resolutions (h : m.Consistent) {addr : Word} {stores : List Store}
    (hr : m.resolutions label addr = .ok stores) : ∀ t ∈ stores, t.InRange := by
  intro t ht
  obtain ⟨f, hf, -, hs⟩ := exists_fixup_of_mem_resolutions h.indexed hr ht
  exact Chunk.inRange_store (h.placed f hf).inRange hs

theorem apart_resolutions (h : m.Consistent) (hne : label ≠ other) {addr target : Word}
    {stores others : List Store} (hr : m.resolutions label addr = .ok stores)
    (ho : m.resolutions other target = .ok others) : ∀ s ∈ stores, ∀ t ∈ others, s.Apart t := by
  intro s hs t ht
  obtain ⟨f, hf, rfl, hfs⟩ := exists_fixup_of_mem_resolutions h.indexed hr hs
  obtain ⟨g, hg, rfl, hgt⟩ := exists_fixup_of_mem_resolutions h.indexed ho ht
  exact Chunk.apart_store (h.apart hf hg fun he => hne (congrArg Fixup.label he)) hfs hgt

theorem agrees_defined (h : m.Consistent) (hne : label ≠ other) {addr target : Word}
    {stores others : List Store} (hr : m.resolutions label addr = .ok stores)
    (ho : m.resolutions other target = .ok others) :
    ((m.defined label addr stores).defined other target others).Agrees
      ((m.defined other target others).defined label addr stores) where
  memory := Memory.setAll_comm m.memory stores others (inRange_resolutions h hr) (inRange_resolutions h ho)
    (apart_resolutions h hne hr ho)
  labels := by
    funext name
    simp only [defined, Symbols.lookup_define]
    by_cases hl : label = name
    · rw [if_neg fun he => hne (hl.trans he.symm), if_pos hl, if_pos hl]
    · rw [if_neg hl, if_neg hl]
  fixups := by
    simp only [defined]
    rw [Symbols.fixups_define (h.indexed.define label addr), Symbols.fixups_define h.indexed,
      Symbols.fixups_define (h.indexed.define other target), Symbols.fixups_define h.indexed,
      List.filter_filter, List.filter_filter]
    simp only [Bool.and_comm]
  text_cursor := rfl
  data_cursor := rfl
  mode := rfl

theorem define_define_comm (h : m.Reachable) (hne : label ≠ other) (addr target : Word) :
    ((m.define other target).2.define label addr).1 = (m.define label addr).1 ∧
      ((m.define label addr).2.define other target).1 = (m.define other target).1 ∧
      ((m.define label addr).2.define other target).2.Agrees ((m.define other target).2.define label addr).2 := by
  have hc := h.consistent
  have hlabel := resolutions_define hc.indexed hne.symm target addr
  have hother := resolutions_define hc.indexed hne addr target
  rw [define_eq _ label, hlabel, define_eq (m.define label addr).2, hother, define_eq m label, define_eq m other]
  cases hr : m.resolutions label addr with
  | error e => cases ho : m.resolutions other target <;> exact ⟨rfl, rfl, rfl, rfl, rfl, rfl, rfl, rfl⟩
  | ok stores =>
    cases ho : m.resolutions other target with
    | error e => exact ⟨rfl, rfl, rfl, rfl, rfl, rfl, rfl, rfl⟩
    | ok others => exact ⟨rfl, rfl, agrees_defined hc hne hr ho⟩

end Define

theorem define_define_comm_misaligned :
    let m : Machine := ((new .initial).assemble jumping).2
    let refusal : AsmError := (AsmCause.misalignedTarget 0x00400002).spanless
    m.Reachable ∧ (m.define "l" 0x00400002).1 = .error refusal ∧
      ((m.define "k" 7).2.define "l" 0x00400002).1 = .error refusal ∧
      ((m.define "l" 0x00400002).2.define "k" 7).2.Agrees ((m.define "k" 7).2.define "l" 0x00400002).2 := by
  intro m refusal
  have hr : m.Reachable := (Reachable.new .initial).assemble jumping
  have hrefused : m.resolutions "l" 0x00400002 = .error (.misalignedTarget 0x00400002) := by
    unfold resolutions
    rw [Symbols.waitingOn_eq hr.consistent.indexed, fixups_jumping, lookup_jumping]
    rfl
  have hfirst : (m.define "l" 0x00400002).1 = .error refusal := by rw [define_eq, hrefused]
  obtain ⟨hl, -, hag⟩ := define_define_comm hr (show "l" ≠ "k" by decide) 0x00400002 7
  exact ⟨hr, hfirst, hl.trans hfirst, hag⟩

end MipsMachine.Machine
