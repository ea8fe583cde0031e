import MipsMachine.Proofs.Assembly.Footprint
import MipsMachine.Proofs.Execution.Touched

namespace MipsMachine.Machine

def LineWrites (m : Machine) (src : String) (a : Word) : Prop :=
  ∃ s p, Stmt.ofTokens (Token.ofLine src) = .ok s ∧ m.planStmt s = .ok p ∧ ∃ t ∈ p.stores, Store.Covers t a

structure Same (m n : Machine) : Prop where
  memory : m.memory.getByte = n.memory.getByte
  rest : n = { m with memory := n.memory }

section Plan

variable {m : Machine} {s : Stmt} {p : Plan} {t : Store}

inductive Lands (m : Machine) (s : Stmt) (t : Store) : Prop
  | text (start : m.textCursor.toNat ≤ t.1.toNat) (stop : t.stop ≤ (m.cursors.next s).text.toNat)
  | data (start : m.dataCursor.toNat ≤ t.1.toNat) (stop : t.stop ≤ (m.cursors.next s).data.toNat)
  | placeholder {f : Fixup} (pending : f ∈ m.symbols.fixups) (defined : s.Defines f.label)
      (start : t.1 = f.addr) (stop : t.stop = f.stop)

theorem Lands.inRange (h : m.Consistent) (hl : m.Lands s t) : t.InRange := by
  cases hl with
  | text _ hsp => exact Nat.le_trans hsp (Nat.le_of_lt (m.cursors.next s).text.isLt)
  | data _ hsp => exact Nat.le_trans hsp (Nat.le_of_lt (m.cursors.next s).data.isLt)
  | placeholder hf _ _ hsp => exact Nat.le_trans (Nat.le_of_eq hsp) (h.placed _ hf).inRange

theorem lands_planInstr {rewrites : List Store} {i : SourceInstr} (ht : m.textCursor.toNat ≤ Segment.text.stop.toNat)
    (hs : s.nucleus = some (.instr i)) (hp : m.planInstr (m.opening s rewrites) i = .ok p) :
    (∀ t ∈ p.stores, t ∈ rewrites ∨ m.Lands s t) ∧
      ∀ f ∈ p.fixups, ∃ t ∈ p.stores, t.1.toNat ≤ f.addr.toNat ∧ f.stop ≤ Store.stop t := by
  obtain ⟨ps, words, -, he, -, -, hlen, hb, rfl⟩ := planInstr_ok hp ht
  have hstop : Store.stop (m.textCursor, words.flatMap Word.bytes) = m.textCursor.toNat + 4 * i.size := by
    rw [Store.stop, Memory.length_flatMap_bytes, hlen]
  have hnext : (m.cursors.next s).text.toNat = m.textCursor.toNat + 4 * i.size := by
    rw [Cursors.next_instr hs]
    exact Segment.toNat_of_le_stop hb
  refine ⟨fun t ht => ?_, fun f hm => ?_⟩
  · rcases List.mem_append.mp ht with ht | ht
    · exact .inl ht
    · obtain rfl := List.mem_singleton.mp ht
      exact .inr (.text (Nat.le_refl _) (Nat.le_of_eq (hstop.trans hnext.symm)))
  · refine ⟨_, List.mem_append_right _ (List.mem_singleton_self _), ?_⟩
    rw [← SourceInstr.sizes_expand he] at hb hstop
    obtain ⟨hstart, -, hend⟩ := (Chunk.bounds_ofPieces hb).1 _ (Chunk.mem_pending.mp hm).1
    exact ⟨hstart, hstop ▸ hend⟩

theorem lands_planDirective {rewrites : List Store} {d : Directive} (hc : m.Consistent)
    (hs : s.nucleus = some (.directive d)) (hp : planDirective (m.opening s rewrites) d = .ok p) :
    (∀ t ∈ p.stores, t ∈ rewrites ∨ m.Lands s t) ∧ p.fixups = [] := by
  cases hd : d.target with
  | some mode =>
    rw [planDirective_target hd] at hp
    cases hp
    exact ⟨fun t ht => .inl ht, rfl⟩
  | none =>
    obtain ⟨hb, rfl⟩ := (planDirective_ok_iff hd).mp hp
    refine ⟨fun t ht => ?_, rfl⟩
    rcases List.mem_append.mp ht with ht | ht
    · exact .inl ht
    · obtain rfl := List.mem_singleton.mp ht
      have hnext : (m.cursors.next s).data.toNat = (m.cursors.aligned s).toNat + d.size := by
        rw [Cursors.next_directive hs]
        exact Segment.toNat_of_le_stop hb
      refine .inr (.data (hc.bounds.le_aligned s) ?_)
      rw [hnext]
      exact Nat.add_le_add_left d.length_bytes_le _

theorem lands_planStmt (h : m.Consistent) (hp : m.planStmt s = .ok p) :
    (∀ t ∈ p.stores, m.Lands s t) ∧
      ∀ f ∈ p.fixups, ∃ t ∈ p.stores, t.1.toNat ≤ f.addr.toNat ∧ f.stop ≤ Store.stop t := by
  have ht := h.bounds.text_stop
  obtain ⟨ha, hf, rewrites, hw, hn⟩ := planStmt_ok_iff.mp hp
  obtain ⟨chunks, stores, hfit, hc, hst, -, -⟩ := chunks_of_planNucleus ht ha hf hn
  have hr : ∀ t ∈ rewrites, m.Lands s t := by
    intro t ht
    obtain ⟨-, f, hm, hd, hstart, hstop⟩ := inRange_rewrites h ⟨hfit, hf, hw, hc, hst⟩ t ht
    exact .placeholder hm hd hstart hstop
  cases hs : s.nucleus with
  | none =>
    rw [planNucleus_none hs] at hn
    cases hn
    exact ⟨hr, fun f hm => (List.not_mem_nil hm).elim⟩
  | some n =>
    cases n with
    | instr i =>
      rw [planNucleus_instr hs] at hn
      obtain ⟨hstores, hfixups⟩ := lands_planInstr ht hs hn
      exact ⟨fun t ht => (hstores t ht).elim (hr t) id, hfixups⟩
    | directive d =>
      rw [planNucleus_directive hs] at hn
      cases hq : planDirective (m.opening s rewrites) d with
      | error e => rw [hq] at hn; cases hn
      | ok q =>
        rw [hq] at hn
        cases hn
        obtain ⟨hstores, hfixups⟩ := lands_planDirective h hs hq
        exact ⟨fun t ht => (hstores t ht).elim (hr t) id, hfixups ▸ fun f hm => (List.not_mem_nil hm).elim⟩

theorem fixups_commit (h : m.Consistent) {f : Fixup} (hf : f ∈ (m.commit p).symbols.fixups) :
    f ∈ m.symbols.fixups ∨ f ∈ p.fixups := by
  change f ∈ (p.fixups.foldl Symbols.record _).fixups at hf
  rw [Symbols.fixups_foldl_record] at hf
  rcases List.mem_append.mp hf with hf | hf
  · cases hl : p.label with
    | none => rw [hl] at hf; exact .inl hf
    | some l =>
      rw [hl] at hf
      change f ∈ (m.symbols.define l.1 l.2).fixups at hf
      rw [Symbols.fixups_define h.indexed] at hf
      exact .inl (List.mem_filter.mp hf).1
  · exact .inr hf

end Plan

section Line

variable {m m' : Machine} {src : String} {ws : List Word}

theorem assembleLine_ok_iff : m.assembleLine src = (.ok ws, m') ↔
    ∃ s p, Stmt.ofTokens (Token.ofLine src) = .ok s ∧ m.planStmt s = .ok p ∧ ws = p.emitted ∧
      m' = m.commit p := by
  unfold assembleLine assembleTokens
  constructor
  · intro h
    cases hs : Stmt.ofTokens (Token.ofLine src) with
    | error e => rw [hs] at h; cases h
    | ok s =>
      rw [hs] at h
      unfold assemble apply at h
      cases hp : m.planStmt s with
      | error e => simp only [hp] at h; cases h
      | ok p => simp only [hp] at h; cases h; exact ⟨s, p, rfl, hp, rfl, rfl⟩
  · rintro ⟨s, p, hs, hp, rfl, rfl⟩
    simp only [hs, assemble, apply, hp]

end Line

theorem effect_commit {m : Machine} (h : m.Consistent) {s : Stmt} {p : Plan} {e : Effect}
    (hp : m.planStmt s = .ok p) (he : m.effect = .ok e)
    (hd : ∀ t ∈ p.stores, ∀ a, Store.Covers t a → ¬ m.StepTouches a) : (m.commit p).effect = .ok e := by
  obtain ⟨hlands, hpending⟩ := lands_planStmt h hp
  obtain ⟨i, hi, -⟩ := fetch_of_effect he
  have hcommit : (m.commit p).Consistent := by
    have ha := h.assemble s
    rwa [assemble, hp] at ha
  apply effect_congr he
  · intro f hf
    rcases fixups_commit h hf with hold | hnew
    · exact (fetchable_of_fetch h hi).settled f hold
    · -- a placeholder of the line lies in its words, and the step does not fetch from there
      apply Bool.eq_false_iff.mpr
      intro hc
      obtain ⟨hlo, hhi⟩ := (hcommit.covers_iff hf m.pc).mp hc
      obtain ⟨t, ht, hstart, hstop⟩ := hpending f hnew
      refine hd t ht m.pc ⟨Nat.le_trans hstart hlo, Nat.lt_of_lt_of_le hhi hstop⟩ ?_
      exact .fetched (Nat.le_refl _) (Nat.lt_add_of_pos_right (by decide))
  · intro a ha
    exact Memory.getByte_setAll_of_not_covers _ _ a (fun t ht => (hlands t ht).inRange h)
      fun t ht hc => hd t ht a hc ha

theorem assembleLine_step_comm {m a b : Machine} {src : String} {ws : List Word} (h : m.Reachable)
    (ha : m.assembleLine src = (.ok ws, a)) (hb : m.step = (.ok (), b))
    (hd : ∀ x, m.LineWrites src x → ¬ m.StepTouches x) :
    ∃ x y, a.step = (.ok (), x) ∧ b.assembleLine src = (.ok ws, y) ∧ x.Same y := by
  have hc := h.consistent
  obtain ⟨s, p, hs, hp, rfl, rfl⟩ := assembleLine_ok_iff.mp ha
  obtain ⟨e, he, rfl⟩ := effect_of_step hb
  have hdp : ∀ t ∈ p.stores, ∀ x, Store.Covers t x → ¬ m.StepTouches x :=
    fun t ht x hx => hd x ⟨s, p, hs, hp, t, ht, hx⟩
  have hstep : (m.commit p).step = (.ok (), (m.commit p).perform e) := by
    rw [step, effect_commit hc hp he hdp]
  have hplan : (m.perform e).planStmt s = .ok p := (planStmt_congr rfl rfl s).trans hp
  have hline : (m.perform e).assembleLine src = (.ok p.emitted, (m.perform e).commit p) :=
    assembleLine_ok_iff.mpr ⟨s, p, hs, hplan, rfl, rfl⟩
  refine ⟨_, _, hstep, hline, ?_, rfl⟩
  obtain ⟨i, -, hx⟩ := fetch_of_effect he
  calc ((m.commit p).perform e).memory.getByte
    _ = ((m.memory.setAll p.stores).setAll e.store.toList).getByte := by
      rw [memory_perform]
      rfl
    _ = ((m.memory.setAll e.store.toList).setAll p.stores).getByte := by
      apply Memory.setAll_comm_of_disjoint
      · exact fun t ht => ((lands_planStmt hc hp).1 t ht).inRange hc
      · exact fun t ht => inRange_execute hx (Option.mem_toList.mp ht)
      · exact fun t ht u hu x hx hcov => hdp t ht x hx (.written he (Option.mem_toList.mp hu) hcov)
    _ = ((m.perform e).commit p).memory.getByte := by
      rw [← memory_perform]
      rfl

theorem assembleLine_step_comm_jump :
    let m : Machine := { new .initial with
      memory := Memory.empty.setWord 0x00400004 (Instr.mem .sw .zero .sp 0).encode
      pc := 0x00400004 }
    ∃ ws a b x y, m.assembleLine "j l" = (.ok ws, a) ∧ m.step = (.ok (), b) ∧
      (∀ z, m.LineWrites "j l" z → ¬ m.StepTouches z) ∧
      a.step = (.ok (), x) ∧ b.assembleLine "j l" = (.ok ws, y) ∧ x.Same y := by
  intro m
  let line : Stmt := ⟨none, some (.instr (.jump .j ⟨"l", 2⟩)), ⟨0, 3⟩⟩
  have hr : m.Reachable := (Reachable.new .initial).set _ _ 0x00400004 _ _ _ _
  have hparse : Stmt.ofTokens (Token.ofLine "j l") = .ok line := by decide +kernel
  have htable : m.table line "l" = none := Symbols.lookup_empty "l"
  have hacc : m.Accepts line [] [.ref ⟨0x00400000, "l", .jump .j⟩] [(0x00400000, [0x08, 0x00, 0x00, 0x00])] := by
    refine ⟨⟨rfl, by decide⟩, by simp [line], rfl, rfl, ?_⟩
    rw [List.mapM_cons, Chunk.store, htable]
    rfl
  obtain ⟨ws, has⟩ := exists_assemble (by decide) hacc
  have hline : m.assembleLine "j l" = m.assemble line := by
    rw [assembleLine, assembleTokens, hparse]
  rw [has] at hline
  have hfetchable : m.Fetchable m.pc (Instr.mem .sw .zero .sp 0).encode :=
    ⟨by decide, by decide, List.forall_mem_nil _, Memory.getWord_setBytes _ _ _ (by decide)⟩
  have haddr : m.get .sp + (0 : Half).signExtend 32 = 0x7FFFEFFC := rfl
  have haccess : Memory.checkAccess 0x7FFFEFFC .word = .ok () := rfl
  have hexec : m.execute (.mem .sw .zero .sp 0) =
      .ok { m.next with store := some (0x7FFFEFFC, (m.get .zero).bytes) } := by
    change (m.lift (Memory.checkAccess (m.get .sp + (0 : Half).signExtend 32) .word) >>= fun _ =>
      Except.ok { m.next with store := some (m.get .sp + (0 : Half).signExtend 32, (m.get .zero).bytes) }) = _
    rw [haddr, haccess]
    rfl
  have hstep := step_of_execute hfetchable hexec
  have hdisjoint : ∀ z, m.LineWrites "j l" z → ¬ m.StepTouches z := by
    rintro z ⟨s, p, hs, hp, t, ht, hstart, hstop⟩ htouch
    cases hparse.symm.trans hs
    have hlow : z.toNat < 0x00400004 := by
      cases (lands_planStmt hr.consistent hp).1 t ht with
      | text _ hend => exact Nat.lt_of_lt_of_le hstop hend
      | data hdata hend =>
        exact absurd (Nat.lt_of_lt_of_le hstop hend) (Nat.not_lt.mpr (Nat.le_trans hdata hstart))
      | placeholder hpending => cases hpending
    cases htouch with
    | fetched hle => exact Nat.not_le.mpr hlow hle
    | accessed hi haccess =>
      cases (fetch_eq hfetchable).symm.trans hi
      cases haccess with
      | operand hle => exact absurd (Nat.lt_of_le_of_lt hle hlow) (by decide)
    | written he hwritten hcovers =>
      cases hexec.symm.trans ((effect_eq hfetchable).symm.trans he)
      cases hwritten
      exact absurd (Nat.lt_of_le_of_lt hcovers.1 hlow) (by decide)
  obtain ⟨x, y, hx, hy, hxy⟩ := assembleLine_step_comm hr hline hstep hdisjoint
  exact ⟨ws, _, _, x, y, hline, hstep, hdisjoint, hx, hy, hxy⟩

end MipsMachine.Machine
