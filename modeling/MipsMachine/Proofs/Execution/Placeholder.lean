import MipsMachine.Proofs.Execution.FailedStep
import MipsMachine.Proofs.Execution.Realization
import MipsMachine.Proofs.Symbols.Ledger

namespace MipsMachine.Machine

def Foremost (m : Machine) (f : Fixup) : Prop :=
  f ∈ m.symbols.fixups ∧ ∀ g ∈ m.symbols.fixups, f.addr ≤ g.addr

structure Refuses (m : Machine) (answer : Option (Run Unit)) : Prop where
  pending : (∃ label n, answer = some ⟨.error (.unresolvedFixup label), (), n⟩) ↔ m.symbols.fixups ≠ []
  named : ∀ label n, answer = some ⟨.error (.unresolvedFixup label), (), n⟩ →
    n = m ∧ ∃ f, m.Foremost f ∧ f.label = label

section Step

variable {m m' : Machine} {f : Fixup} {label : String}

theorem Consistent.covers_iff (h : m.Consistent) (hf : f ∈ m.symbols.fixups) (a : Word) :
    f.covers a = true ↔ f.addr.toNat ≤ a.toNat ∧ a.toNat < f.stop :=
  Fixup.covers_iff (Nat.lt_of_le_of_lt (h.placed f hf).ref.2.2 m.textCursor.isLt) a

theorem Consistent.fixupAt_eq (h : m.Consistent) (hf : f ∈ m.symbols.fixups) {a : Word}
    (ha : f.covers a = true) : m.symbols.fixupAt a = some f := by
  cases hg : m.symbols.fixupAt a with
  | none => exact absurd ha (List.find?_eq_none.mp hg f hf)
  | some g =>
    have hgm : g ∈ m.symbols.fixups := List.mem_of_find?_eq_some hg
    have hga : g.covers a = true := by simpa using List.find?_some hg
    obtain ⟨hglo, hghi⟩ := (h.covers_iff hgm a).mp hga
    obtain ⟨hflo, hfhi⟩ := (h.covers_iff hf a).mp ha
    -- two references that cover one address cannot stand apart
    by_contra hne
    rcases h.apart hf hgm (fun he => hne (congrArg some he.symm)) with hap | hap
    · exact absurd (Nat.lt_of_le_of_lt hglo hfhi) (Nat.not_lt.mpr hap)
    · exact absurd (Nat.lt_of_le_of_lt hflo hghi) (Nat.not_lt.mpr hap)

theorem step_covered (h : m.Consistent) (hf : f ∈ m.symbols.fixups) (hpc : f.covers m.pc = true) :
    m.step = (.error (.unresolvedFixup f.label), m) := by
  have hu : m.symbols.hasUnresolved = true :=
    (Symbols.hasUnresolved_iff h.indexed).mpr (List.ne_nil_of_mem hf)
  unfold step effect
  rw [fetch_covered hu (h.fixupAt_eq hf hpc)]
  rfl

theorem pending_of_step (h : m.step = (.error (.unresolvedFixup label), m')) : m.symbols.fixups ≠ [] := by
  unfold step at h
  cases he : m.effect with
  | ok e => rw [he] at h; cases h
  | error g =>
    rw [he] at h
    obtain ⟨cause, console⟩ := g
    cases h
    rcases effect_error he with hg | ⟨f, hf, -⟩
    · cases hg with
      | plain hp => exact hp.elim
    · exact List.ne_nil_of_mem (List.mem_of_find?_eq_some hf)

theorem fixupAt_of_fetch {i : Instr} (hi : m.fetch = .ok i) (hu : m.symbols.hasUnresolved = true) :
    m.symbols.fixupAt m.pc = none := by
  by_contra hf
  obtain ⟨f, hf⟩ := Option.ne_none_iff_exists'.mp hf
  rw [fetch_covered hu hf] at hi
  cases hi

theorem fetchable_of_fetch (h : m.Consistent) {i : Instr} (hi : m.fetch = .ok i) :
    m.Fetchable m.pc (m.memory.getWord m.pc) := by
  have hsettled := fixupAt_of_fetch hi
  rw [fetch_settled hsettled] at hi
  have hseg : Segment.of? m.pc = some .text := by
    by_contra hs
    rw [if_pos hs] at hi
    cases hi
  have hal : m.pc.toNat % 4 = 0 := by
    by_contra hal
    rw [if_neg (not_not.mpr hseg), Memory.read, Memory.checkAccess,
      if_pos (show m.pc.toNat % Width.word.size ≠ 0 from hal)] at hi
    cases hi
  have htext : Segment.text.Contains m.pc := by simpa using List.find?_some hseg
  refine ⟨hal, htext, fun f hf => ?_, rfl⟩
  have hu : m.symbols.hasUnresolved = true :=
    (Symbols.hasUnresolved_iff h.indexed).mpr (List.ne_nil_of_mem hf)
  exact Bool.eq_false_iff.mpr (List.find?_eq_none.mp (hsettled hu) f hf)

theorem fetch_of_step (h : m.step = (.ok (), m')) : ∃ i, m.fetch = .ok i := by
  cases hf : m.fetch with
  | ok i => exact ⟨i, rfl⟩
  | error e =>
    unfold step effect at h
    rw [hf] at h
    cases h

theorem Fetchable.not_covered (h : m.Consistent) {w : Word} (hw : m.Fetchable m.pc w)
    (hf : f ∈ m.symbols.fixups) {i : Nat} (hi : i < 4) :
    ¬ (f.addr.toNat ≤ (m.pc + BitVec.ofNat 32 i).toNat ∧ (m.pc + BitVec.ofNat 32 i).toNat < f.stop) := by
  have hlt : m.pc.toNat < Segment.text.stop.toNat := hw.text.2
  have hstop : Segment.text.stop.toNat = 0x10000000 := rfl
  have hpc := hw.aligned
  have haddr := (h.placed f hf).ref.2.1
  have hfirst : ¬ (f.addr.toNat ≤ m.pc.toNat ∧ m.pc.toNat < f.stop) := by
    rw [← h.covers_iff hf, hw.settled f hf]
    exact Bool.false_ne_true
  rw [Word.toNat_add_ofNat _ _ (by omega)]
  unfold Fixup.stop at hfirst ⊢
  omega

end Step

section Run

variable {m : Machine}

theorem Consistent.foremost (h : m.Consistent) {f : Fixup} {rest : List Fixup}
    (hf : m.symbols.fixups = f :: rest) : m.Foremost f := by
  have hs := h.sorted
  rw [hf] at hs
  refine ⟨hf ▸ List.mem_cons_self, fun g hg => ?_⟩
  rcases List.mem_cons.mp (hf ▸ hg) with rfl | hg
  · exact Nat.le_refl _
  · exact Nat.le_trans (Nat.le_of_lt f.addr_lt_stop) ((List.pairwise_cons.mp hs).1 g hg)

theorem refuses_runWhile {wire : Tripwire Unit} (hw : ∀ s n, (wire s n).2.2 = n) (h : m.Consistent)
    (fuel : Nat) : m.Refuses (m.runWhile wire fuel ()) := by
  unfold runWhile
  cases hf : m.symbols.fixups with
  | cons f rest =>
    dsimp only
    refine ⟨⟨fun _ => hf ▸ List.cons_ne_nil f rest, fun _ => ⟨f.label, m, rfl⟩⟩, ?_⟩
    rintro label n ⟨⟩
    exact ⟨rfl, f, h.foremost hf, rfl⟩
  | nil =>
    have hnot (label : String) (n : Machine) :
        { m with halted := false }.loop wire fuel () ≠ some ⟨.error (.unresolvedFixup label), (), n⟩ := by
      intro hr
      have hresumed : { m with halted := false }.symbols.fixups = [] := hf
      have hkeeps := loop_keeps (P := fun n => n.symbols.fixups = [])
        (fun s n hn => (hw s n).symm ▸ hn) (fun n hn => (symbols_step n).symm ▸ hn) hresumed hr
      obtain ⟨n', hn', hstep⟩ := hkeeps.2 _ rfl
      exact pending_of_step hstep hn'
    dsimp only
    exact ⟨⟨fun ⟨label, n, hr⟩ => (hnot label n hr).elim, fun hne => (hne hf).elim⟩,
      fun label n hr => (hnot label n hr).elim⟩

end Run

theorem placeholder_not_executed {m : Machine} (h : m.Reachable) :
    (∀ fuel, m.Refuses (m.run fuel)) ∧ (∀ limit, m.Refuses (m.runWithLimit limit)) ∧
      (∀ f ∈ m.symbols.fixups, f.addr.toNat ≤ m.pc.toNat → m.pc.toNat < f.stop →
        m.step = (.error (.unresolvedFixup f.label), m)) ∧
      ∀ m', m.step = (.ok (), m') → ∀ f ∈ m.symbols.fixups, ∀ i < 4,
        ¬ (f.addr.toNat ≤ (m.pc + BitVec.ofNat 32 i).toNat ∧ (m.pc + BitVec.ofNat 32 i).toNat < f.stop) := by
  have hc := h.consistent
  refine ⟨fun fuel => refuses_runWhile (fun _ _ => rfl) hc fuel,
    fun limit => refuses_runWhile (fun _ _ => rfl) hc _, fun f hf hlo hhi => ?_, fun m' hs f hf i hi => ?_⟩
  · exact step_covered hc hf ((hc.covers_iff hf m.pc).mpr ⟨hlo, hhi⟩)
  · obtain ⟨instr, hi'⟩ := fetch_of_step hs
    exact (fetchable_of_fetch hc hi').not_covered hc hf hi

theorem placeholder_not_executed_load :
    let s : Stmt := ⟨none, some (.instr (.pseudo (.memLabel .lw ⟨8⟩ ⟨"l", 8⟩))), ⟨0, 9⟩⟩
    let m : Machine := { ((new .initial).assemble s).2 with pc := 0x00400006 }
    m.Reachable ∧ m.run 0 = some ⟨.error (.unresolvedFixup "l"), (), m⟩ ∧
      m.step = (.error (.unresolvedFixup "l"), m) := by
  intro s m
  have hr : m.Reachable := ((Reachable.new .initial).assemble s).set _ _ 0x00400006 _ _ _ _
  have ht : (new .initial).table s "l" = none := Symbols.lookup_empty "l"
  let load : Store := (0x00400008, (Instr.mem .lw ⟨8⟩ .scratch 0).encode.bytes)
  have hacc : (new .initial).Accepts s [] [.ref ⟨0x00400000, "l", .address .scratch⟩, .fixed load]
      [(0x00400000, (Patch.address .scratch).placeholder.flatMap Word.bytes), load] := by
    refine ⟨⟨rfl, by decide⟩, fun l hl => (nomatch hl), rfl, rfl, ?_⟩
    rw [List.mapM_cons, Chunk.store, ht]
    rfl
  obtain ⟨words, has⟩ := exists_assemble (by decide) hacc
  have hf : m.symbols.fixups = [⟨0x00400000, "l", .address .scratch⟩] := by
    change ((new .initial).assemble s).2.symbols.fixups = _
    rw [has, fixups_after Symbols.indexed_empty]
    simp only [List.filterMap_cons, List.filterMap_nil, Chunk.pending, ht, if_true]
    rfl
  obtain ⟨hrun, -, hstep, -⟩ := placeholder_not_executed hr
  obtain ⟨label, n, hrefused⟩ := (hrun 0).pending.mpr (hf ▸ List.cons_ne_nil _ _)
  obtain ⟨rfl, f, ⟨hfm, -⟩, rfl⟩ := (hrun 0).named label n hrefused
  rw [hf, List.mem_singleton] at hfm
  subst hfm
  exact ⟨hr, hrefused, hstep _ (hf ▸ List.mem_singleton_self _) (by decide) (by decide)⟩

end MipsMachine.Machine
