import MipsMachine.Proofs.Assembly.Resolution
import MipsMachine.Proofs.Execution.Arithmetic
import MipsMachine.Proofs.Execution.Realization

namespace MipsMachine

def Comparison.holds (order : Comparison) (a b : Word) : Bool :=
  match order with
  | .lt => a.toInt < b.toInt
  | .le => a.toInt ≤ b.toInt
  | .gt => b.toInt < a.toInt
  | .ge => b.toInt ≤ a.toInt

theorem Comparison.ge_holds (a b : Word) : Comparison.ge.holds a b = !decide (a.toInt < b.toInt) := by
  rw [← decide_not]
  exact decide_eq_decide.mpr Int.not_lt.symm

theorem Comparison.le_holds (a b : Word) : Comparison.le.holds a b = !decide (b.toInt < a.toInt) :=
  Comparison.ge_holds b a

namespace Machine

/-- `k` steps lead from one machine to the other and put a value in a register on the way. -/
structure Given (n n' : Machine) (k : Nat) (rd : Reg) (v : Word) : Prop where
  takes : n.Takes k n'
  pc : n'.pc = n.pc + BitVec.ofNat 32 (4 * k)
  result : rd ≠ .zero → n'.get rd = v
  zero : n'.get .zero = n.get .zero
  others : ∀ r, r ≠ rd → r ≠ .scratch → n'.get r = n.get r
  memory : n'.memory = n.memory

def Gives (n : Machine) (k : Nat) (rd : Reg) (v : Word) : Prop := ∃ n', n.Given n' k rd v

def Goes (n : Machine) (k : Nat) (target : Word) : Prop :=
  ∃ n', n.Takes k n' ∧ n'.pc = target ∧ (∀ r, r ≠ .scratch → n'.get r = n.get r) ∧
    n'.memory = n.memory

def Stores (n : Machine) (addr : Word) (bytes : List Byte) : Prop :=
  ∃ n', n.Takes 3 n' ∧ n'.pc = n.pc + 12 ∧ (∀ r, r ≠ .scratch → n'.get r = n.get r) ∧
    n'.memory = n.memory.setBytes addr bytes

end Machine

def Pseudo.Meaning (n : Machine) : Pseudo → Prop
  | move rd rs => n.Gives 1 rd (n.get rs)
  | li rt value => n.Gives (li rt value).size rt (BitVec.ofInt 32 value)
  | la rt label => ∀ target, n.symbols.lookup label.name = some target → n.Gives 2 rt target
  | abs rd rs => rd ≠ .scratch → rs ≠ .scratch →
      n.Gives 3 rd (BitVec.ofNat 32 (n.get rs).toInt.natAbs)
  | neg rd rs =>
      if n.flags.trapOnOverflow = true ∧ (n.get rs).toInt = -0x80000000 then
        (n.steps 1).1 = .error .integerOverflow
      else n.Gives 1 rd (BitVec.ofInt 32 (-(n.get rs).toInt))
  | negu rd rs => n.Gives 1 rd (BitVec.ofInt 32 (-(n.get rs).toInt))
  | not rd rs => n.Gives 1 rd (~~~n.get rs)
  | mul rd rs rt => n.Gives 2 rd (BitVec.ofInt 32 ((n.get rs).toInt * (n.get rt).toInt))
  | sgt rd rs rt => n.Gives 1 rd (if (n.get rt).toInt < (n.get rs).toInt then 1 else 0)
  | sge rd rs rt => n.Gives 2 rd (if (n.get rt).toInt ≤ (n.get rs).toInt then 1 else 0)
  | ordBranch order rs rt label => ∀ target, n.symbols.lookup label.name = some target →
      n.Goes 2 (if order.holds (n.get rs) (n.get rt) then target else n.pc + 8)
  | b label => ∀ target, n.symbols.lookup label.name = some target → n.Goes 1 target
  | memLabel op rt label => ∀ target, n.symbols.lookup label.name = some target →
      match Memory.checkAccess target op.width with
      | .error e => (n.steps 3).1 = .error e
      | .ok () =>
        if op.isStore then n.Stores target (op.width.bytes (if rt = .scratch then target else n.get rt))
        else n.Gives 3 rt (op.extend (n.memory.load target op.width))

namespace Machine

section Gives

variable {n n' : Machine} {i : Instr} {k : Nat} {r rd : Reg} {v w : Word}

theorem gives_put (h : n.step = (.ok (), n.put rd v)) : n.Gives 1 rd v :=
  ⟨n.put rd v, takes_one h, rfl, n.get_put_self rd v, n.get_put_zero rd v,
    fun _ hr _ => n.get_put_of_ne rd v hr, rfl⟩

theorem gives_one (h : n.Fetchable n.pc i.encode) (he : n.execute i = .ok (n.writing rd v)) :
    n.Gives 1 rd v := gives_put (step_put h he)

theorem Gives.congr (h : n.Gives k rd v) (hv : rd ≠ .zero → v = w) : n.Gives k rd w := by
  obtain ⟨n', hg⟩ := h
  exact ⟨n', { hg with result := fun hr => (hg.result hr).trans (hv hr) }⟩

theorem Gives.cons (hg : n'.Gives k rd v) (h : n.step = (.ok (), n')) (hpc : n'.pc = n.pc + (4 : Word))
    (hz : n'.get .zero = n.get .zero) (ho : ∀ r, r ≠ rd → r ≠ .scratch → n'.get r = n.get r)
    (hm : n'.memory = n.memory) : n.Gives (k + 1) rd v := by
  obtain ⟨n'', hg⟩ := hg
  refine ⟨n'', hg.takes.cons h, ?_, hg.result, hg.zero.trans hz, fun r hr hs => ?_, hg.memory.trans hm⟩
  · rw [hg.pc, hpc, BitVec.add_assoc, Nat.mul_succ, Nat.add_comm, BitVec.ofNat_add]
    rfl
  · exact (hg.others r hr hs).trans (ho r hr hs)

theorem Gives.put (hg : (n.put r w).Gives k rd v) (h : n.step = (.ok (), n.put r w))
    (hr : r = rd ∨ r = .scratch) : n.Gives (k + 1) rd v := by
  refine hg.cons h rfl (n.get_put_zero r w) (fun s hs hs' => n.get_put_of_ne r w ?_) rfl
  rintro rfl
  exact hr.elim hs hs'

end Gives

section Words

variable {n : Machine} {rd rs rt : Reg}

theorem gives_move (h : n.Fetchable n.pc (Instr.alu .add rd rs .zero).encode) (hz : n.get .zero = 0) :
    n.Gives 1 rd (n.get rs) := by
  apply gives_one h
  change (do return n.writing rd (← n.lift (signedAdd _ (n.get rs) (n.get .zero)))) = _
  rw [hz, signedAdd_zero]
  rfl

theorem gives_small {value : Int} (hv : -0x8000 ≤ value ∧ value < 0x8000)
    (h : n.Fetchable n.pc (Instr.imm .addiu rt .zero (BitVec.ofInt 16 value)).encode)
    (hz : n.get .zero = 0) : n.Gives 1 rt (BitVec.ofInt 32 value) := by
  apply gives_one h
  change Except.ok (n.writing rt (n.get .zero + (BitVec.ofInt 16 value).signExtend 32)) = _
  rw [hz, zero_add_signExtend hv]

theorem gives_loadConstant {value : Word}
    (h : n.Carries n.pc ((Patch.loadConstant rt value).map Instr.encode)) : n.Gives 2 rt value := by
  obtain ⟨hupper, hlower⟩ := Patch.step_loadConstant h
  exact (gives_put hlower).put hupper (.inr rfl)

theorem gives_abs (h : n.RealizesAll n.pc [.word (.shift .sra .scratch rs 31),
      .word (.alu .xor rd rs .scratch), .word (.alu .subu rd rd .scratch)])
    (hrd : rd ≠ .scratch) (hrs : rs ≠ .scratch) :
    n.Gives 3 rd (BitVec.ofNat 32 (n.get rs).toInt.natAbs) := by
  obtain ⟨h₁, h₂, h₃, -⟩ := h
  let sign := (n.get rs).sshiftRight 31
  let n₁ := n.put .scratch sign
  let n₂ := n₁.put rd (n₁.get rs ^^^ n₁.get .scratch)
  have hsign : n₁.get .scratch = sign := n.get_put_self _ _ (by decide)
  have hvalue : n₁.get rs = n.get rs := n.get_put_of_ne _ _ hrs
  have hlast : n₂.Gives 1 rd (n₂.get rd - n₂.get .scratch) := gives_one (h₃.congr rfl rfl) rfl
  have hmiddle : n₁.Gives 2 rd (n₂.get rd - n₂.get .scratch) :=
    hlast.put (step_put (h₂.congr rfl rfl) rfl) (.inl rfl)
  refine (hmiddle.put (step_put h₁ rfl) (.inr rfl)).congr fun hz => ?_
  rw [n₁.get_put_self rd _ hz, n₁.get_put_of_ne rd _ (Ne.symm hrd), hsign, hvalue]
  exact xor_sub_sign (n.get rs)

theorem gives_neg (h : n.Fetchable n.pc (Instr.alu .sub rd .zero rs).encode) (hz : n.get .zero = 0) :
    if n.flags.trapOnOverflow = true ∧ (n.get rs).toInt = -0x80000000 then
      (n.steps 1).1 = .error .integerOverflow
    else n.Gives 1 rd (BitVec.ofInt 32 (-(n.get rs).toInt)) := by
  have he : n.execute (.alu .sub rd .zero rs) =
      (do return n.writing rd (← n.lift (signedSub n.flags.trapOnOverflow 0 (n.get rs)))) := by
    rw [← hz]
    rfl
  rw [signedSub_zero] at he
  by_cases ht : n.flags.trapOnOverflow = true ∧ (n.get rs).toInt = -0x80000000
  · rw [if_pos ht] at he ⊢
    exact (takes_zero n).step_error (congrArg Prod.fst (step_of_fault h he))
  · rw [if_neg ht] at he ⊢
    exact gives_one h he

theorem gives_mul (h : n.RealizesAll n.pc [.word (.mulDiv .mult rs rt), .word (.hiLo .mflo rd)]) :
    n.Gives 2 rd (BitVec.ofInt 32 ((n.get rs).toInt * (n.get rt).toInt)) := by
  obtain ⟨h₁, h₂, -⟩ := h
  let product := (n.get rs).signExtend 64 * (n.get rt).signExtend 64
  let n₁ := n.perform { n.next with hiLo := some (product.extractLsb' 32 32, product.extractLsb' 0 32) }
  have hlast : n₁.Gives 1 rd (product.extractLsb' 0 32) := gives_one (h₂.congr rfl rfl) rfl
  rw [low_product] at hlast
  exact hlast.cons (step_of_execute h₁ rfl) rfl rfl (fun _ _ _ => rfl) rfl

theorem gives_sge (h : n.RealizesAll n.pc [.word (.alu .slt rd rs rt), .word (.imm .xori rd rd 1)]) :
    n.Gives 2 rd (if (n.get rt).toInt ≤ (n.get rs).toInt then 1 else 0) := by
  obtain ⟨h₁, h₂, -⟩ := h
  let less := truth ((n.get rs).toInt < (n.get rt).toInt)
  have hlast : (n.put rd less).Gives 1 rd ((n.put rd less).get rd ^^^ 1) :=
    gives_one (h₂.congr rfl rfl) rfl
  refine (hlast.put (step_put h₁ rfl) (.inl rfl)).congr fun hz => ?_
  rw [n.get_put_self rd _ hz, truth_xor_one, ← decide_not, truth_decide]
  simp only [Int.not_lt]

end Words

section Labels

variable {n : Machine} {rs rt : Reg} {label : Label} {target : Word}

theorem Realizes.congr {n' : Machine} {addr : Word} {p : Piece} (h : n.Realizes addr p)
    (hm : n'.memory = n.memory) (hs : n'.symbols = n.symbols) : n'.Realizes addr p := by
  cases p with
  | word i => exact Fetchable.congr h hm hs
  | ref patch label =>
    intro target ht
    obtain ⟨ws, hr, hw⟩ := h target (hs ▸ ht)
    exact ⟨ws, hr, hw.congr hm hs⟩

theorem Realizes.lands {patch : Patch} (h : n.Realizes n.pc (.ref patch label))
    (ht : n.symbols.lookup label.name = some target) : patch.Lands n target := by
  obtain ⟨ws, hr, hw⟩ := h target ht
  have hlen := Patch.length_resolve hr
  have hpos := patch.size_pos
  have ha : n.pc.toNat % 4 = 0 := by
    cases ws with
    | nil => exact absurd hlen (Nat.ne_of_lt hpos)
    | cons w ws => exact hw.1.aligned
  exact (patch.resolve_unless ha target).of_ok hr n rfl hw

theorem goes_b (h : n.Realizes n.pc (.ref (.compare .beq .zero .zero) label))
    (ht : n.symbols.lookup label.name = some target) : n.Goes 1 target := by
  obtain ⟨n', hstep, hregs, hmem, hpc⟩ := h.lands ht
  refine ⟨n', takes_one hstep, ?_, fun r _ => congrArg (·.get r) hregs, hmem⟩
  rw [hpc, CompareOp.test, decide_eq_true rfl, if_pos rfl]

theorem goes_compare {op : CompareOp} (h₁ : n.Realizes n.pc (.word (.alu .slt .scratch rs rt)))
    (h₂ : n.Realizes (n.pc + (4 : Word)) (.ref (.compare op .scratch .zero) label)) (hz : n.get .zero = 0)
    (ht : n.symbols.lookup label.name = some target) :
    n.Goes 2 (if op.test (truth ((n.get rs).toInt < (n.get rt).toInt)) 0 then target else n.pc + 8) := by
  let less := truth ((n.get rs).toInt < (n.get rt).toInt)
  have hnext : (n.put .scratch less).Realizes (n.put .scratch less).pc
      (.ref (.compare op .scratch .zero) label) := h₂.congr rfl rfl
  obtain ⟨n', hstep, hregs, hmem, hpc⟩ := hnext.lands ht
  rw [n.get_put_self _ _ (by decide), n.get_put_zero, hz] at hpc
  refine ⟨n', (takes_one hstep).cons (step_put h₁ rfl), ?_, fun r hr => ?_, hmem⟩
  · rw [hpc, pc_put, BitVec.add_assoc]
    rfl
  · exact (congrArg (·.get r) hregs).trans (n.get_put_of_ne .scratch less hr)

theorem goes_ordered {order : Comparison} (h : n.RealizesAll n.pc (Pseudo.orderedBranch order rs rt label))
    (hz : n.get .zero = 0) (ht : n.symbols.lookup label.name = some target) :
    n.Goes 2 (if order.holds (n.get rs) (n.get rt) then target else n.pc + 8) := by
  cases order with
  | lt =>
    have hg := goes_compare h.1 h.2.1 hz ht
    rwa [bne_truth] at hg
  | gt =>
    have hg := goes_compare h.1 h.2.1 hz ht
    rwa [bne_truth] at hg
  | ge =>
    have hg := goes_compare h.1 h.2.1 hz ht
    rwa [beq_truth, ← Comparison.ge_holds] at hg
  | le =>
    have hg := goes_compare h.1 h.2.1 hz ht
    rwa [beq_truth, ← Comparison.le_holds] at hg

end Labels

section Access

variable {m n : Machine} {op : MemOp} {rt base : Reg} {offset : Half} {target : Word} {label : Label}

theorem execute_mem_error {e : ExecError} (ha : m.get base + offset.signExtend 32 = target)
    (h : Memory.checkAccess target op.width = .error e) :
    m.execute (.mem op rt base offset) = .error ⟨e, m.console⟩ := by
  subst ha
  unfold execute Memory.read
  simp only [h]
  split <;> rfl

theorem execute_load (ha : m.get base + offset.signExtend 32 = target) (hs : op.isStore = false)
    (h : Memory.checkAccess target op.width = .ok ()) :
    m.execute (.mem op rt base offset) =
      .ok (m.writing rt (op.extend (m.memory.load target op.width))) := by
  subst ha
  unfold execute Memory.read
  simp only [hs, h]
  rfl

theorem execute_store (ha : m.get base + offset.signExtend 32 = target) (hs : op.isStore = true)
    (h : Memory.checkAccess target op.width = .ok ()) :
    m.execute (.mem op rt base offset) =
      .ok { m.next with store := some (target, op.width.bytes (m.get rt)) } := by
  subst ha
  unfold execute
  simp only [hs, h]
  rfl

theorem accesses_label (h₁ : n.Realizes n.pc (.ref (.address .scratch) label))
    (h₂ : n.Realizes (n.pc + (8 : Word)) (.word (.mem op rt .scratch 0)))
    (ht : n.symbols.lookup label.name = some target) :
    match Memory.checkAccess target op.width with
    | .error e => (n.steps 3).1 = .error e
    | .ok () =>
      if op.isStore then n.Stores target (op.width.bytes (if rt = .scratch then target else n.get rt))
      else n.Gives 3 rt (op.extend (n.memory.load target op.width)) := by
  obtain ⟨ws, hr, hw⟩ := h₁ target ht
  cases hr
  obtain ⟨hupper, hlower⟩ := Patch.step_loadConstant hw
  let upper := n.put .scratch (target.extractLsb' 16 16 ++ 0#16)
  let based := upper.put .scratch target
  have hpc : based.pc = n.pc + 8 := BitVec.add_assoc n.pc 4 4
  have hf : based.Fetchable based.pc (Instr.mem op rt .scratch 0).encode := by
    rw [hpc]
    exact Fetchable.congr h₂ rfl rfl
  have hbase : based.get .scratch = target := upper.get_put_self .scratch target (by decide)
  have haddr : based.get .scratch + (0 : Half).signExtend 32 = target := by
    rw [hbase]
    exact BitVec.add_zero target
  have htakes : n.Takes 2 based := .cons hupper (takes_one hlower)
  have hother (r : Reg) (hr : r ≠ .scratch) : based.get r = n.get r := by
    rw [upper.get_put_of_ne _ _ hr, n.get_put_of_ne _ _ hr]
  cases hacc : Memory.checkAccess target op.width with
  | error e =>
    have hfault := step_of_fault hf (execute_mem_error haddr hacc)
    exact htakes.step_error (congrArg Prod.fst hfault)
  | ok u =>
    cases hs : op.isStore with
    | true =>
      have hvalue : based.get rt = if rt = .scratch then target else n.get rt := by
        by_cases hr : rt = .scratch
        · rw [if_pos hr, hr, hbase]
        · rw [if_neg hr, hother rt hr]
      have hstep := step_of_execute hf (execute_store haddr hs hacc)
      rw [hvalue] at hstep
      refine ⟨_, .cons hupper (.cons hlower (takes_one hstep)), ?_, fun r hr => hother r hr, rfl⟩
      change based.pc + (4 : Word) = _
      rw [hpc, BitVec.add_assoc]
      rfl
    | false =>
      have hload := gives_one hf (execute_load haddr hs hacc)
      exact (hload.put hlower (.inr rfl)).put hupper (.inr rfl)

end Access

end Machine

open Machine

namespace Pseudo

variable {m m' n : Machine} {p : Pseudo}

theorem meaning_of_realizesAll {table : LabelTable} {ps : List Piece} (he : p.expand table = .ok ps)
    (ht : ∀ name addr, table name = some addr → n.symbols.lookup name = some addr)
    (h : n.RealizesAll n.pc ps) (hz : n.get .zero = 0) : p.Meaning n := by
  cases p with
  | move rd rs => cases he; exact gives_move h.1 hz
  | li rt value =>
    rw [expand] at he
    rw [Meaning, size]
    by_cases hv : -0x8000 ≤ value ∧ value < 0x8000
    · rw [if_pos hv] at he ⊢
      cases he
      exact gives_small hv h.1 hz
    · rw [if_neg hv] at he ⊢
      cases he
      exact gives_loadConstant ⟨h.1, h.2.1, trivial⟩
  | la rt label =>
    intro target hl
    rw [expand] at he
    cases ha : table label.name with
    | none => rw [ha] at he; cases he
    | some addr =>
      obtain rfl : addr = target := Option.some.inj ((ht _ _ ha).symm.trans hl)
      rw [ha] at he
      cases he
      exact gives_loadConstant ⟨h.1, h.2.1, trivial⟩
  | abs rd rs => cases he; exact gives_abs h
  | neg rd rs => cases he; exact gives_neg h.1 hz
  | negu rd rs =>
    cases he
    rw [Meaning, ← zero_sub_eq_ofInt, ← hz]
    exact gives_one h.1 rfl
  | not rd rs =>
    cases he
    have hg : n.Gives 1 rd (~~~(n.get rs ||| n.get .zero)) := gives_one h.1 rfl
    rw [hz] at hg
    rwa [show n.get rs ||| 0 = n.get rs from BitVec.or_zero] at hg
  | mul rd rs rt => cases he; exact gives_mul h
  | sgt rd rs rt =>
    cases he
    have hg : n.Gives 1 rd (truth ((n.get rt).toInt < (n.get rs).toInt)) := gives_one h.1 rfl
    rwa [truth_decide] at hg
  | sge rd rs rt => cases he; exact gives_sge h
  | ordBranch order rs rt label => cases he; exact fun target hl => goes_ordered h hz hl
  | b label => cases he; exact fun target hl => goes_b h.1 hl
  | memLabel op rt label => cases he; exact fun target hl => accesses_label h.1 h.2.1 hl

theorem meaning_of_assemble (hm : m.Reachable) {s : Stmt} (hs : s.nucleus = some (.instr (.pseudo p)))
    {ws : List Word} (ha : m.assemble s = (.ok ws, m')) (hn : Onward (m.TextBetween m') m' n)
    (hpc : n.pc = m.textCursor) (hz : n.get .zero = 0) : p.Meaning n := by
  obtain ⟨ps, he, hr⟩ := realizesAll_of_onward hm hs ha hn
  have hc' : m'.Consistent := by
    have hc := hm.consistent.assemble s
    rwa [ha] at hc
  rw [← hpc] at hr
  exact meaning_of_realizesAll he (fun _ _ hl => hn.lookup hc' hl) hr hz

theorem meaning_of_assemble_forward :
    let s : Stmt := ⟨none, some (.instr (.pseudo (.ordBranch .lt .scratch ⟨8⟩ ⟨"done", 14⟩))), ⟨0, 18⟩⟩
    ∃ ws m', (new .initial).assemble s = (.ok ws, m') ∧
      let n : Machine := { (m'.define "done" 0x00400020).2 with
        registers := (RegisterFile.initial.set .scratch 1).set ⟨8⟩ 2 }
      n.symbols.lookup "done" = some 0x00400020 ∧ n.Goes 2 0x00400020 := by
  intro s
  let f : Fixup := ⟨0x00400004, "done", .compare .bne .scratch .zero⟩
  have ht : (new .initial).table s "done" = none := Symbols.lookup_empty "done"
  have hacc : (new .initial).Accepts s [] [.fixed (0x00400000, [0x00, 0x28, 0x08, 0x2A]), .ref f]
      [(0x00400000, [0x00, 0x28, 0x08, 0x2A]), (0x00400004, [0x14, 0x20, 0x00, 0x00])] := by
    refine ⟨⟨rfl, by decide⟩, fun l hl => (nomatch hl), rfl, rfl, ?_⟩
    simp only [List.mapM_cons, Chunk.store, f, ht]
    rfl
  obtain ⟨ws, ha⟩ := exists_assemble (by decide) hacc
  generalize hm' : (new .initial).after s [] _ _ = m' at ha
  have hi : m'.symbols.Indexed := hm' ▸ indexed_after Symbols.indexed_empty
  have hl : m'.symbols.lookup "done" = none := by rw [← hm', lookup_after]; exact ht
  have hf : m'.symbols.fixups = [f] := by
    rw [← hm', fixups_after Symbols.indexed_empty]
    simp only [List.filterMap_cons, List.filterMap_nil, Chunk.pending, f, ht, if_true]
    rfl
  have hw : m'.symbols.waitingOn "done" = [f] := by
    rw [Symbols.waitingOn_eq hi, hf]
    rfl
  have haddr : f.addr.toNat % 4 = 0 := show (0x00400004 : Word).toNat % 4 = 0 by decide
  obtain ⟨branch, hr, -⟩ := (f.patch.resolve_unless haddr 0x00400020).exists_ok rfl
  have hwr : (m'.symbols.waitingOn "done").mapM (Fixup.rewrite 0x00400020) =
      .ok [(f.addr, branch.flatMap Word.bytes)] := by
    rw [hw, List.mapM_cons, Fixup.rewrite, hr]
    rfl
  have hd := define_ok_iff.mpr ⟨hl, _, hwr, rfl⟩
  refine ⟨ws, m', ha, ?_⟩
  intro n
  have hn : Onward ((new .initial).TextBetween m') m' n :=
    (Onward.refl.define "done" 0x00400020).set _ _ _ _ _ _ _ _ fun _ _ => rfl
  have hlook : n.symbols.lookup "done" = some 0x00400020 := by
    change (m'.define "done" 0x00400020).2.symbols.lookup "done" = _
    rw [hd]
    exact (m'.symbols.lookup_define "done" "done" 0x00400020).trans (if_pos rfl)
  have hpc : n.pc = (new .initial).textCursor := by
    change (m'.define "done" 0x00400020).2.pc = _
    rw [hd, ← hm']
    rfl
  have hz : n.get .zero = 0 := by
    change ((RegisterFile.initial.set .scratch 1).set ⟨8⟩ 2).get .zero = 0
    decide
  exact ⟨hlook, meaning_of_assemble (.new .initial) rfl ha hn hpc hz _ hlook⟩

/-- A result for `$zero` is lost, so `move` does not make it equal to its source. -/
theorem move_zero :
    let s : Stmt := ⟨none, some (.instr (.pseudo (.move .zero ⟨8⟩))), ⟨0, 15⟩⟩
    ∃ ws m', (new .initial).assemble s = (.ok ws, m') ∧
      let n : Machine := { m' with registers := RegisterFile.initial.set ⟨8⟩ 5 }
      n.pc = (new .initial).textCursor ∧ ∃ n', n.Takes 1 n' ∧ n'.get .zero ≠ n.get ⟨8⟩ := by
  intro s
  have hacc : (new .initial).Accepts s [] [.fixed (0x00400000, [0x01, 0x00, 0x00, 0x20])]
      [(0x00400000, [0x01, 0x00, 0x00, 0x20])] :=
    ⟨⟨rfl, by decide⟩, fun l hl => (nomatch hl), rfl, rfl, rfl⟩
  obtain ⟨ws, ha⟩ := exists_assemble (by decide) hacc
  refine ⟨ws, _, ha, ?_⟩
  intro n
  obtain ⟨ps, he, hr⟩ := realizesAll_of_onward (.new .initial) rfl ha
    (show Onward _ _ n from Onward.refl.set _ _ _ _ _ _ _ _ fun _ _ => rfl)
  cases he
  have hz : n.get .zero = 0 := by
    change (RegisterFile.initial.set ⟨8⟩ 5).get .zero = 0
    decide
  have hv : n.get ⟨8⟩ = 5 := by
    change (RegisterFile.initial.set ⟨8⟩ 5).get ⟨8⟩ = 5
    decide
  obtain ⟨n', hg⟩ := gives_move hr.1 hz
  refine ⟨rfl, n', hg.takes, ?_⟩
  rw [hg.zero, hz, hv]
  decide

end Pseudo

end MipsMachine
