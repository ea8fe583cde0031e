import MipsMachine.Proofs.Assembly.ForwardReference
import MipsMachine.Proofs.Assembly.TwoPass
import MipsMachine.Proofs.Symbols.Ledger

/-!
A program can be entered again after a reset. Either the labels are gone, and assembling it is what it was on
the new machine; or they have survived, and its statements without their labels come to the same, although no
reference has to wait any more.
-/

namespace MipsMachine

def Stmt.unlabelled (s : Stmt) : Stmt := { s with label := none }

namespace Machine

inductive Assembles : Machine → List Stmt → Machine → Prop
  | nil (m : Machine) : Assembles m [] m
  | cons {m m' n : Machine} {s : Stmt} {ss : List Stmt} {words : List Word}
      (first : m.assemble s = (.ok words, m')) (rest : Assembles m' ss n) : Assembles m (s :: ss) n

/--
What comes of a machine by stepping and running, with writes to the parts that are open to all in between.
A tripwire may do the same, and those of `run` and `runWithLimit` do nothing.
-/
inductive Executes : Machine → Machine → Prop
  | refl (m : Machine) : Executes m m
  | step {m n : Machine} (h : Executes m n) : Executes m n.step.2
  | runWhile {m n : Machine} {σ : Type} {wire : Tripwire σ} (hw : ∀ s k, Executes k (wire s k).2.2)
      (h : Executes m n) {fuel : Nat} {s : σ} {r : Run σ} (hr : n.runWhile wire fuel s = some r) :
      Executes m r.machine
  | set {m n : Machine} (h : Executes m n) (memory : Memory) (registers : RegisterFile) (pc : Word)
      (count : BitVec 64) (flags : Flags) (breakpoints : List Breakpoint) (console : Console) :
      Executes m { n with memory, registers, pc, count, flags, breakpoints, console }

theorem Executes.symbols {m n : Machine} (h : m.Executes n) : n.symbols = m.symbols := by
  induction h with
  | refl m => rfl
  | step _ ih => exact (symbols_step _).trans ih
  | @runWhile m n σ wire _ _ fuel s r hr ihw ih =>
    exact runWhile_preserves (P := fun k => k.symbols = m.symbols) (fun s k hk => (ihw s k).trans hk)
      (fun k hk => (symbols_step k).trans hk) (fun _ hk => hk) ih hr
  | set _ _ _ _ _ _ _ _ ih => exact ih

theorem flags_step (m : Machine) : m.step.2.flags = m.flags := by
  unfold step
  cases m.effect <;> rfl

section Alike

variable {m n k : Machine} {s : Stmt} {ss : List Stmt} {words : List Word}

structure Alike (m n : Machine) : Prop where
  memory : m.memory = n.memory
  symbols : m.symbols = n.symbols
  cursors : m.cursors = n.cursors

theorem Alike.agrees (h : m.Alike n) : m.Agrees n where
  memory := congrArg Memory.getByte h.memory
  labels := congrArg Symbols.lookup h.symbols
  fixups := congrArg Symbols.fixups h.symbols
  text_cursor := congrArg Cursors.text h.cursors
  data_cursor := congrArg Cursors.data h.cursors
  mode := congrArg Cursors.mode h.cursors

theorem Alike.assemble (h : m.Alike n) (ha : m.assemble s = (.ok words, k)) :
    ∃ k', n.assemble s = (.ok words, k') ∧ k.Alike k' := by
  unfold Machine.assemble apply at ha ⊢
  rw [planStmt_congr h.symbols h.cursors] at ha
  cases hp : n.planStmt s with
  | error e => rw [hp] at ha; cases ha
  | ok p =>
    rw [hp] at ha
    cases ha
    refine ⟨n.commit p, rfl, ?_, ?_, rfl⟩
    · exact congrArg (·.setAll p.stores) h.memory
    · unfold commit
      rw [h.symbols]

theorem Alike.assembles (h : m.Alike n) (ha : m.Assembles ss k) : ∃ k', n.Assembles ss k' ∧ k.Alike k' := by
  induction ha generalizing n with
  | nil m => exact ⟨n, .nil n, h⟩
  | cons first _ ih =>
    obtain ⟨n', hn', h'⟩ := h.assemble first
    obtain ⟨k', hk', hk⟩ := ih h'
    exact ⟨k', .cons hn' hk', hk⟩

theorem alike_reset (flags : Flags) (h : n.flags.clearSymbolsOnReset = true) : (new flags).Alike n.reset := by
  refine ⟨rfl, ?_, rfl⟩
  unfold reset
  rw [if_pos h]
  rfl

end Alike

end Machine

namespace TwoPass

open Machine

structure Prepared (table : LabelTable) (c : Cursors) (ss : List Stmt) (cs : List Chunk)
    (stores : List Store) : Prop where
  fits : ∀ p ∈ place c ss, p.1.Fits p.2
  chunks_eq : chunks table (place c ss) = .ok cs
  stores_eq : cs.mapM (Chunk.store table) = .ok stores
  known : cs.filterMap (Chunk.pending table) = []

section Prepared

variable {table : LabelTable} {c : Cursors} {s : Stmt} {ss : List Stmt} {cs : List Chunk} {stores : List Store}

theorem prepared_nil (h : Prepared table c [] cs stores) : stores = [] := by
  obtain ⟨css, hcss, rfl⟩ := chunks_eq_ok_iff.mp h.chunks_eq
  cases hcss
  exact (Except.ok.inj h.stores_eq).symm

theorem prepared_cons (h : Prepared table c (s :: ss) cs stores) :
    ∃ ds ts ds' ts', s.chunks c table = .ok ds ∧ ds.mapM (Chunk.store table) = .ok ts ∧
      ds.filterMap (Chunk.pending table) = [] ∧ stores = ts ++ ts' ∧ c.Fits s ∧
      Prepared table (c.next s) ss ds' ts' := by
  obtain ⟨css, hcss, rfl⟩ := chunks_eq_ok_iff.mp h.chunks_eq
  have hp : place c (s :: ss) = (c, s) :: place (c.next s) ss := rfl
  rw [hp, mapM_eq_ok_iff] at hcss
  cases hcss with
  | @cons _ ds _ dss hds hrest =>
    have hstores := h.stores_eq
    have hknown := h.known
    rw [List.flatten_cons] at hstores hknown
    obtain ⟨ts, ts', hts, hts', rfl⟩ := mapM_append_eq_ok_iff.mp hstores
    obtain ⟨hk, hk'⟩ := List.append_eq_nil_iff.mp ((List.filterMap_append).symm.trans hknown)
    refine ⟨ds, ts, dss.flatten, ts', hds, hts, hk, rfl, h.fits _ (hp ▸ List.mem_cons_self), ?_, ?_, hts', hk'⟩
    · exact fun p hm => h.fits p (hp ▸ List.mem_cons_of_mem _ hm)
    · exact chunks_eq_ok_iff.mpr ⟨dss, mapM_eq_ok_iff.mpr hrest, rfl⟩

end Prepared

section Unlabelled

variable {r k : Machine} {s : Stmt} {ss : List Stmt} {cs : List Chunk} {stores : List Store} {table : LabelTable}

theorem assemble_unlabelled (h : r.Consistent) (ht : r.symbols.lookup = table) (hf : r.symbols.fixups = [])
    (hfit : r.cursors.Fits s) (hc : s.chunks r.cursors table = .ok cs)
    (hs : cs.mapM (Chunk.store table) = .ok stores) (hk : cs.filterMap (Chunk.pending table) = []) :
    ∃ words r', r.assemble s.unlabelled = (.ok words, r') ∧ r'.Consistent ∧ r'.symbols.lookup = table ∧
      r'.symbols.fixups = [] ∧ r'.cursors = r.cursors.next s ∧ r'.memory = r.memory.setAll stores := by
  have hl : r.table s.unlabelled = table := ht
  have hacc : r.Accepts s.unlabelled [] cs stores :=
    ⟨hfit, fun l hl => (nomatch hl), rfl, hl ▸ hc, hl ▸ hs⟩
  obtain ⟨words, ha⟩ := exists_assemble h.bounds.text_stop hacc
  refine ⟨words, _, ha, h.after hacc, lookup_after.trans hl, ?_, rfl, rfl⟩
  rw [fixups_after h.indexed, hf, hl, hk]
  rfl

theorem assembles_unlabelled (h : r.Consistent) (ht : r.symbols.lookup = table) (hf : r.symbols.fixups = [])
    (hp : Prepared table r.cursors ss cs stores) :
    (∃ k, r.Assembles (ss.map Stmt.unlabelled) k ∧ k.symbols.lookup = table ∧ k.symbols.fixups = [] ∧
      k.cursors = ss.foldl Cursors.next r.cursors ∧ k.memory = r.memory.setAll stores) ∧
    ∀ ts us k, ss.map Stmt.unlabelled = ts ++ us → r.Assembles ts k → k.symbols.fixups = [] := by
  induction ss generalizing r cs stores with
  | nil =>
    obtain rfl := prepared_nil hp
    refine ⟨⟨r, .nil r, ht, hf, rfl, rfl⟩, fun ts us k he hk => ?_⟩
    obtain ⟨rfl, -⟩ := List.append_eq_nil_iff.mp he.symm
    cases hk
    exact hf
  | cons s ss ih =>
    obtain ⟨ds, ts, ds', ts', hds, hts, hknown, rfl, hfit, hrest⟩ := prepared_cons hp
    obtain ⟨words, r', ha, hc', ht', hf', hcur, hmem⟩ := assemble_unlabelled h ht hf hfit hds hts hknown
    obtain ⟨⟨k, hk, hkt, hkf, hkc, hkm⟩, hprefix⟩ := ih hc' ht' hf' (hcur ▸ hrest)
    refine ⟨⟨k, .cons ha hk, hkt, hkf, ?_, ?_⟩, fun us vs j he hj => ?_⟩
    · rw [hkc, hcur]
      rfl
    · rw [hkm, hmem, Memory.setAll_append]
    · cases hj with
      | nil => exact hf
      | cons first rest =>
        obtain ⟨rfl, htail⟩ := List.cons.inj he
        cases ha.symm.trans first
        exact hprefix _ vs j htail rest

theorem Assembled.assembles (h : Assembled r ss cs stores) (hfit : ∀ p ∈ place .start ss, p.1.Fits p.2)
    {ts : List Stmt} (ha : r.Assembles ts k) :
    ∃ cs' stores', Assembled k (ss ++ ts) cs' stores' ∧ ∀ p ∈ place .start (ss ++ ts), p.1.Fits p.2 := by
  induction ha generalizing ss cs stores with
  | nil r =>
    rw [List.append_nil]
    exact ⟨cs, stores, h, hfit⟩
  | @cons r r' k s ts words first _ ih =>
    obtain ⟨rewrites, ds, more, hacc, rfl, -⟩ := assemble_ok h.consistent.bounds.text_stop first
    obtain ⟨stores', h'⟩ := h.after hacc
    rw [List.append_cons]
    apply ih h'
    intro p hp
    rw [place_append, ← h.cursors] at hp
    rcases List.mem_append.mp hp with hp | hp
    · exact hfit p hp
    · obtain rfl := List.mem_singleton.mp hp
      exact hacc.fits

end Unlabelled

end TwoPass

namespace Machine

theorem reassembles {flags : Flags} {ss : List Stmt} {m n : Machine} (ha : (new flags).Assembles ss m)
    (hf : m.symbols.fixups = []) (he : m.Executes n) :
    (n.flags.clearSymbolsOnReset = true → ∃ k, n.reset.Assembles ss k ∧ m.Agrees k) ∧
    (n.flags.clearSymbolsOnReset = false →
      n.reset.symbols.lookup = m.symbols.lookup ∧ n.reset.symbols.fixups = [] ∧
      (∃ k, n.reset.Assembles (ss.map Stmt.unlabelled) k ∧ m.Agrees k) ∧
      ∀ ts us k, ss.map Stmt.unlabelled = ts ++ us → n.reset.Assembles ts k → k.symbols.fixups = []) := by
  refine ⟨fun hclear => ?_, fun hkeep => ?_⟩
  · obtain ⟨k, hk, hmk⟩ := (alike_reset flags hclear).assembles ha
    exact ⟨k, hk, hmk.agrees⟩
  · have hsymbols : n.reset.symbols = m.symbols.clearFixups := by
      rw [← he.symbols]
      exact if_neg (hkeep ▸ Bool.false_ne_true)
    have hlookup : n.reset.symbols.lookup = m.symbols.lookup := by
      rw [hsymbols]
      rfl
    have hfixups : n.reset.symbols.fixups = [] := by
      rw [hsymbols]
      exact m.symbols.fixups_clearFixups
    obtain ⟨cs, stores, hm, hfits⟩ := (TwoPass.Assembled.new flags).assembles
      (fun p hp => (List.not_mem_nil hp).elim) ha
    rw [List.nil_append] at hm hfits
    have hprepared : TwoPass.Prepared m.symbols.lookup n.reset.cursors ss cs stores :=
      ⟨hfits, hm.chunks_eq, hm.stores_eq, hm.fixups.symm.trans hf⟩
    obtain ⟨⟨k, hk, hkt, hkf, hkc, hkm⟩, hprefix⟩ :=
      TwoPass.assembles_unlabelled (.reset n) hlookup hfixups hprepared
    have hcursors : m.cursors = k.cursors := hm.cursors.trans hkc.symm
    refine ⟨hlookup, hfixups, ⟨k, hk, ?_⟩, hprefix⟩
    exact {
      memory := hm.bytes.trans (congrArg Memory.getByte hkm).symm
      labels := hkt.symm
      fixups := hf.trans hkf.symm
      text_cursor := congrArg Cursors.text hcursors
      data_cursor := congrArg Cursors.data hcursors
      mode := congrArg Cursors.mode hcursors }

theorem reassembles_jump :
    let jump : Stmt := ⟨none, some (.instr (.jump .j ⟨"l", 2⟩)), ⟨0, 3⟩⟩
    let label : Stmt := ⟨some ⟨"l", 0⟩, none, ⟨0, 2⟩⟩
    ∃ m, (new ⟨false, true⟩).Assembles [jump, label] m ∧ m.symbols.fixups = [] ∧ m.Executes m.step.2 ∧
      ∃ k, m.step.2.reset.Assembles [jump, label.unlabelled] k ∧ m.Agrees k := by
  intro jump label
  let start : Machine := new ⟨false, true⟩
  let waits : Machine :=
    start.after jump [] [.ref ⟨0x00400000, "l", .jump .j⟩] [(0x00400000, [0x08, 0x00, 0x00, 0x00])]
  let m : Machine := waits.after label [(0x00400000, [0x08, 0x10, 0x00, 0x01])] [] []
  have htable : start.table jump "l" = none := Symbols.lookup_empty "l"
  have hjump : start.Accepts jump [] [.ref ⟨0x00400000, "l", .jump .j⟩]
      [(0x00400000, [0x08, 0x00, 0x00, 0x00])] := by
    refine ⟨⟨rfl, by decide⟩, fun l hl => (nomatch hl), rfl, rfl, ?_⟩
    rw [List.mapM_cons, Chunk.store, htable]
    rfl
  have hindexed : waits.symbols.Indexed := indexed_after Symbols.indexed_empty
  have hpending : waits.symbols.fixups = [⟨0x00400000, "l", .jump .j⟩] := by
    rw [fixups_after Symbols.indexed_empty]
    simp only [List.filterMap_cons, List.filterMap_nil, Chunk.pending, htable, if_true]
    rfl
  have hhere : waits.cursors.here label = 0x00400004 := rfl
  have hlabel : waits.Accepts label [(0x00400000, [0x08, 0x10, 0x00, 0x01])] [] [] := by
    refine ⟨trivial, ?_, ?_, rfl, rfl⟩
    · rintro l ⟨⟩
      rw [lookup_after]
      exact htable
    · rw [waiting_eq hindexed, hpending, hhere]
      rfl
  obtain ⟨_, hfirst⟩ := exists_assemble (by decide) hjump
  obtain ⟨_, hsecond⟩ := exists_assemble (by decide) hlabel
  have ha : start.Assembles [jump, label] m := .cons hfirst (.cons hsecond (.nil m))
  have hf : m.symbols.fixups = [] := by
    rw [fixups_after hindexed, hpending]
    rfl
  have he : m.Executes m.step.2 := .step (.refl m)
  have hkeep : m.step.2.flags.clearSymbolsOnReset = false := congrArg Flags.clearSymbolsOnReset (flags_step m)
  obtain ⟨-, -, hk, -⟩ := (reassembles ha hf he).2 hkeep
  exact ⟨m, ha, hf, he, hk⟩

end Machine

end MipsMachine
