import MipsMachine.Proofs.Assembly.Reachable
import MipsMachine.Proofs.Checked.Memory
import MipsMachine.Proofs.Checked.Patch
import MipsMachine.Proofs.Checked.Statement
import MipsMachine.Proofs.Statement.Grammar

namespace MipsMachine.Checked

structure Draft where
  label : Option (String × Word)
  bytes : List (Word × Byte)
  fixups : List Fixup
  emitted : List Word
  textCursor : Word
  dataCursor : Word
  mode : Mode

def Draft.ofPlan (p : Plan) : Draft where
  label := p.label
  bytes := p.stores.flatMap fun s => located 1 s.1 s.2
  fixups := p.fixups
  emitted := p.emitted
  textCursor := p.textCursor
  dataCursor := p.dataCursor
  mode := p.mode

section Located

theorem located_append (start : Word) (xs ys : List Byte) :
    located 1 start (xs ++ ys) = located 1 start xs ++ located 1 (start + BitVec.ofNat 32 xs.length) ys := by
  induction xs generalizing start with
  | nil => simp [located]
  | cons x xs ih =>
    have hnext : start + BitVec.ofNat 32 1 + BitVec.ofNat 32 xs.length =
        start + BitVec.ofNat 32 (x :: xs).length := by
      rw [BitVec.add_assoc, ← BitVec.ofNat_add, List.length_cons, Nat.add_comm]
    rw [List.cons_append, located, ih, hnext]
    rfl

theorem flatMap_located (start : Word) (ws : List Word) :
    (located 4 start ws).flatMap (fun w => located 1 w.1 w.2.bytes) =
      located 1 start (ws.flatMap Word.bytes) := by
  induction ws generalizing start with
  | nil => rfl
  | cons w ws ih =>
    rw [located, List.flatMap_cons, ih, List.flatMap_cons, located_append]
    rfl

theorem foldl_stores (m : Memory) (ss : List Store) :
    (ss.flatMap fun s => located 1 s.1 s.2).foldl (fun m b => m.setByte b.1 b.2) m = m.setAll ss := by
  induction ss generalizing m with
  | nil => rfl
  | cons s ss ih => rw [List.flatMap_cons, List.foldl_append, foldl_located, ih, Memory.setAll_cons]

end Located

section Align

def alignment : Directive → Option Nat
  | .align exponent => if exponent.toNat ≤ 3 then (shl (1 : Word) exponent.toNat).map BitVec.toNat else none
  | d => some d.alignment

def alignUp (cursor : Word) (n : Nat) : Option Word := do
  let r ← remainder cursor.toNat n
  if r = 0 then return cursor else return cursor + BitVec.ofNat 32 (← sub n r)

def alignedCursor (m : Machine) (s : Stmt) : Attempt AsmError Word :=
  match s.nucleus, m.mode with
  | some (.directive d), .data =>
    if d.target = none then do
      let aligned ← alignUp m.dataCursor (← alignment d)
      let _ ← total ((Segment.data.advance aligned 0).mapError (·.marked s.span))
      return aligned
    else return m.dataCursor
  | _, _ => total (m.alignedCursor s)

def Aligns (s : Stmt) : Prop :=
  ∀ exponent, s.nucleus = some (.directive (.align exponent)) → exponent.toNat ≤ 3

theorem alignment_eq {d : Directive} (h : ∀ exponent, d = .align exponent → exponent.toNat ≤ 3) :
    alignment d = some d.alignment := by
  cases d with
  | align exponent =>
    have he := h exponent rfl
    rw [alignment, if_pos he, shl_eq _ (by omega), Directive.alignment]
    obtain he | he | he | he :
        exponent.toNat = 0 ∨ exponent.toNat = 1 ∨ exponent.toNat = 2 ∨ exponent.toNat = 3 := by omega
    all_goals
      rw [he]
      rfl
  | _ => rfl

theorem alignUp_eq (cursor : Word) {n : Nat} (h : 0 < n) :
    alignUp cursor n = some (MipsMachine.alignUp cursor n) := by
  have hlt := Nat.mod_lt cursor.toNat h
  rw [alignUp, remainder_eq _ h, some_bind, MipsMachine.alignUp]
  split
  · rfl
  · rw [sub_eq (Nat.le_of_lt hlt)]
    rfl

theorem alignedCursor_eq {s : Stmt} (h : Aligns s) (m : Machine) :
    alignedCursor m s = total (m.alignedCursor s) := by
  unfold alignedCursor
  split
  · rename_i d hn hm
    split
    · rename_i hd
      have hal : alignment d = some d.alignment := alignment_eq fun exponent he => h exponent (he ▸ hn)
      have ha : m.cursors.aligned s = MipsMachine.alignUp m.dataCursor d.alignment := Cursors.aligned_directive hn
      rw [lift_eq hal, ok_bind, lift_eq (alignUp_eq _ d.alignment_bounds.1), ok_bind, ← ha,
        Machine.alignedCursor_data hn hd hm, Segment.advance, Nat.add_zero]
      split <;> rfl
    · rename_i hd
      obtain ⟨mode, hd⟩ := Option.ne_none_iff_exists'.mp hd
      rw [Machine.alignedCursor_target hn hd]
      rfl
  · rfl

theorem aligns_of_ofTokens {tokens : List Token} {s : Stmt} (h : Stmt.ofTokens tokens = .ok s) : Aligns s := by
  intro exponent hn
  obtain ⟨-, hline⟩ := Stmt.line_of_ofTokens h
  generalize tokens.takeWhile (fun t => t.kind ≠ .eol) = line at hline
  cases hline with
  | blank => cases hn
  | @nucleus _ _ _ _ _ operands _ _ _ hmeans =>
    generalize operands.map (Located.value ·) = values at hmeans
    cases hn
    cases hmeans with
    | directive hmeans =>
      cases hmeans with
      | align hv =>
        rw [BitVec.toNat_ofInt]
        omega

end Align

section Pieces

def piece (lookup : String → Option Word) (addr : Word) : Piece → Attempt AsmError (List Word × List Fixup)
  | .word i => do return ([← encode i], [])
  | .ref patch label =>
    match lookup label.name with
    | none => do return (← placeholder patch, [⟨addr, label.name, patch⟩])
    | some target => do return (← relabel (·.marked label.span) (resolve patch addr target), [])

def pieces (lookup : String → Option Word) (addr : Word) :
    List Piece → Attempt AsmError (List Word × List Fixup × Word)
  | [] => return ([], [], addr)
  | p :: rest => do
    let (words, fixups) ← piece lookup addr p
    let next ← total ((Segment.text.advance addr (4 * words.length)).mapError AsmCause.spanless)
    let (moreWords, moreFixups, stop) ← pieces lookup next rest
    return (words ++ moreWords, fixups ++ moreFixups, stop)

theorem piece_eq (lookup : String → Option Word) (addr : Word) (p : Piece) :
    piece lookup addr p = total (Plan.piece lookup addr p) := by
  cases p with
  | word i =>
    rw [piece, lift_eq (encode_eq i)]
    rfl
  | ref patch label =>
    rw [piece, Plan.piece]
    cases lookup label.name with
    | none =>
      dsimp only
      rw [lift_eq (placeholder_eq patch)]
      rfl
    | some target =>
      dsimp only
      rw [resolve_eq, relabel_total]
      cases patch.resolve addr target <;> rfl

theorem pieces_eq (lookup : String → Option Word) (addr : Word) (ps : List Piece) :
    pieces lookup addr ps = total (Plan.pieces lookup addr ps) := by
  induction ps generalizing addr with
  | nil => rfl
  | cons p rest ih =>
    rw [pieces, piece_eq, Plan.pieces]
    refine total_bind fun parts _ => ?_
    obtain ⟨words, fixups⟩ := parts
    dsimp only
    cases Segment.text.advance addr (4 * words.length) with
    | error e => rfl
    | ok next =>
      refine (ok_bind _ _).trans ?_
      rw [ih]
      exact total_bind fun _ _ => rfl

end Pieces

section Plans

def idle (m : Machine) : Draft := .ofPlan m.idle

def resolutions (m : Machine) (label : String) (addr : Word) : Attempt AsmCause (List (Word × Byte)) :=
  if (m.symbols.lookup label).isSome then throw (.labelRedefined label)
  else do
    let rewrites ← (m.symbols.waitingOn label).mapM fun f => do
      let words ← addresses 4 f.addr (← resolve f.patch f.addr addr)
      return words.flatMap fun w => located 1 w.1 w.2.bytes
    return rewrites.flatten

def planLabel (m : Machine) (label : String) (addr : Word) : Attempt AsmCause Draft := do
  return { idle m with label := some (label, addr), bytes := ← resolutions m label addr }

def planInstr (m : Machine) (p : Draft) (i : SourceInstr) : Attempt AsmError Draft := do
  let lookup := m.lookupIn p.label
  let (words, fixups, stop) ← pieces lookup p.textCursor (← expand lookup i)
  return { p with
    bytes := p.bytes ++ located 1 p.textCursor (words.flatMap Word.bytes)
    fixups := fixups
    emitted := words
    textCursor := stop }

def planDirective (p : Draft) (d : Directive) : Attempt AsmCause Draft :=
  match d.target with
  | some mode => return { p with mode := mode }
  | none => do
    let next ← total (Segment.data.advance p.dataCursor d.size)
    return { p with bytes := p.bytes ++ (← addresses 1 p.dataCursor d.bytes), dataCursor := next }

def planNucleus (m : Machine) (s : Stmt) (p : Draft) : Attempt AsmError Draft :=
  match s.nucleus with
  | none => return p
  | some (.instr i) => planInstr m p i
  | some (.directive d) => relabel (·.marked s.span) (planDirective p d)

def planStmt (m : Machine) (s : Stmt) : Attempt AsmError Draft := do
  let aligned ← alignedCursor m s
  let labelled ← match s.label with
    | none => pure (idle m)
    | some l =>
      let addr := match m.mode with
        | .text => m.textCursor
        | .data => aligned
      relabel (·.marked l.span) (planLabel m l.name addr)
  planNucleus m s { labelled with dataCursor := aligned }

theorem mapM_rewrite {fs : List Fixup} (h : ∀ f ∈ fs, f.stop + 1 < 0x100000000) (addr : Word) :
    (fs.mapM fun f => do
      let words ← addresses 4 f.addr (← resolve f.patch f.addr addr)
      return words.flatMap fun w => located 1 w.1 w.2.bytes : Attempt AsmCause _) =
      total ((fs.mapM (Fixup.rewrite addr)).map fun ss => ss.map fun s => located 1 s.1 s.2) := by
  induction fs with
  | nil => rfl
  | cons f fs ih =>
    rw [List.forall_mem_cons] at h
    rw [List.mapM_cons, List.mapM_cons, ih h.2, resolve_eq, Fixup.rewrite]
    cases hr : f.patch.resolve f.addr addr with
    | error e => rfl
    | ok ws =>
      have hstop : f.addr.toNat + 4 * ws.length + 1 < 0x100000000 := Patch.length_resolve hr ▸ h.1
      rw [ok_bind, lift_eq (addresses_eq hstop), ok_bind, flatMap_located]
      cases fs.mapM (Fixup.rewrite addr) <;> rfl

theorem resolutions_eq {m : Machine} (h : m.Consistent) (label : String) (addr : Word) :
    resolutions m label addr =
      total ((m.resolutions label addr).map fun ss => ss.flatMap fun s => located 1 s.1 s.2) := by
  have hstop : ∀ f ∈ m.symbols.waitingOn label, f.stop + 1 < 0x100000000 := by
    intro f hf
    rw [Symbols.waitingOn_eq h.indexed] at hf
    have hplaced := (h.placed f (List.mem_filter.mp hf).1).ref.2.2
    have hbound : f.stop ≤ 0x10000000 := Nat.le_trans hplaced h.bounds.text_stop
    omega
  unfold resolutions Machine.resolutions
  split
  · rfl
  · rw [mapM_rewrite hstop]
    change _ = total (((m.symbols.waitingOn label).mapM (Fixup.rewrite addr)).map _)
    cases (m.symbols.waitingOn label).mapM (Fixup.rewrite addr) with
    | error e => rfl
    | ok ss => exact congrArg (fun bs => total (.ok bs)) (List.flatMap_def ..).symm

theorem flatMap_stores (ss : List Store) (addr : Word) (bytes : List Byte) :
    (ss ++ [(addr, bytes)]).flatMap (fun s => located 1 s.1 s.2) =
      (ss.flatMap fun s => located 1 s.1 s.2) ++ located 1 addr bytes := by
  rw [List.flatMap_append, List.flatMap_singleton]

theorem planLabel_eq {m : Machine} (h : m.Consistent) (label : String) (addr : Word) :
    planLabel m label addr = total ((m.planLabel label addr).map .ofPlan) := by
  rw [planLabel, resolutions_eq h, Machine.planLabel]
  cases m.resolutions label addr <;> rfl

theorem planInstr_eq (m : Machine) (p : Plan) (i : SourceInstr) :
    planInstr m (.ofPlan p) i = total ((m.planInstr p i).map .ofPlan) := by
  rw [planInstr, expand_eq, Machine.planInstr]
  refine total_bind_map fun ps _ => ?_
  rw [pieces_eq]
  refine total_bind_map fun parts _ => ?_
  obtain ⟨words, fixups, stop⟩ := parts
  have hb := flatMap_stores p.stores p.textCursor (words.flatMap Word.bytes)
  exact congrArg (fun bytes => total (.ok
    { Draft.ofPlan p with bytes, fixups, emitted := words, textCursor := stop })) hb.symm

theorem planDirective_eq (p : Plan) (d : Directive) :
    planDirective (.ofPlan p) d = total ((Machine.planDirective p d).map .ofPlan) := by
  unfold planDirective
  split
  · rename_i mode hd
    rw [Machine.planDirective_target hd]
    rfl
  · rename_i hd
    have hp : Machine.planDirective p d = (Segment.data.advance p.dataCursor d.size) >>= fun next =>
        .ok { p with stores := p.stores ++ [(p.dataCursor, d.bytes)], dataCursor := next } := by
      cases d <;> first | rfl | cases hd
    rw [hp]
    refine total_bind_map fun next hn => ?_
    have hlen := d.length_bytes_le
    have hstop : p.dataCursor.toNat + d.size ≤ 0x10040000 := (Segment.advance_eq_ok_iff.mp hn).1
    have haddr : addresses 1 p.dataCursor d.bytes = some (located 1 p.dataCursor d.bytes) :=
      addresses_eq (by omega)
    have hb := flatMap_stores p.stores p.dataCursor d.bytes
    refine (congrArg (· >>= _) (lift_eq haddr)).trans ?_
    exact congrArg (fun bytes => total (.ok { Draft.ofPlan p with bytes, dataCursor := next })) hb.symm

theorem planNucleus_eq (m : Machine) (s : Stmt) (p : Plan) :
    planNucleus m s (.ofPlan p) = total ((m.planNucleus s p).map .ofPlan) := by
  unfold planNucleus
  split
  · rename_i hn
    rw [Machine.planNucleus_none hn]
    rfl
  · rename_i i hn
    rw [planInstr_eq, Machine.planNucleus_instr hn]
  · rename_i d hn
    rw [planDirective_eq, relabel_total, Machine.planNucleus_directive hn]
    cases Machine.planDirective p d <;> rfl

theorem planStmt_eq {m : Machine} (h : m.Consistent) {s : Stmt} (ha : Aligns s) :
    planStmt m s = total ((m.planStmt s).map .ofPlan) := by
  rw [planStmt, alignedCursor_eq ha, Machine.planStmt]
  refine total_bind_map fun aligned _ => ?_
  cases s.label with
  | none => exact planNucleus_eq m s { m.idle with dataCursor := aligned }
  | some l =>
    dsimp only
    rw [planLabel_eq h, relabel_total]
    cases m.planLabel l.name (match m.mode with | .text => m.textCursor | .data => aligned) with
    | error e => rfl
    | ok p => exact planNucleus_eq m s { p with dataCursor := aligned }

end Plans

section Commit

def commit (m : Machine) (p : Draft) : Option Machine := do
  return { m with
    memory := ← setLocated m.memory p.bytes
    symbols := p.fixups.foldl Symbols.record (p.label.elim m.symbols fun l => m.symbols.define l.1 l.2)
    textCursor := p.textCursor
    dataCursor := p.dataCursor
    mode := p.mode }

def apply {α : Type} (m : Machine) (answer : Draft → α) (p : Attempt AsmError Draft) :
    Option (Except AsmError α × Machine) := do
  match ← p.run with
  | .ok p => return (.ok (answer p), ← commit m p)
  | .error e => return (.error e, m)

def assembleLine (m : Machine) (src : String) : Option (Except AsmError (List Word) × Machine) := do
  match ← (ofTokens (← ofLine src)).run with
  | .ok s => apply m Draft.emitted (planStmt m s)
  | .error e => return (.error (.ofParse e), m)

def define (m : Machine) (label : String) (addr : Word) : Option (Except AsmError Unit × Machine) :=
  apply m (fun _ => ()) (relabel AsmCause.spanless (planLabel m label addr))

theorem commit_eq (m : Machine) (p : Plan) : commit m (.ofPlan p) = some (m.commit p) := by
  have hb : setLocated m.memory (Draft.ofPlan p).bytes = some (m.memory.setAll p.stores) := by
    rw [setLocated_eq]
    exact congrArg some (foldl_stores m.memory p.stores)
  rw [commit, hb]
  rfl

theorem apply_eq {α : Type} (m : Machine) {answer : Draft → α} (p : Except AsmError Plan) :
    apply m answer (total (p.map .ofPlan)) = some (m.apply (fun p => answer (.ofPlan p)) p) := by
  cases p with
  | error e => rfl
  | ok p =>
    change (do return (Except.ok (answer (.ofPlan p)), ← commit m (.ofPlan p))) = _
    rw [commit_eq]
    rfl

theorem assembleLine_eq {m : Machine} (h : m.Consistent) (src : String) :
    assembleLine m src = some (m.assembleLine src) := by
  rw [assembleLine, ofLine_eq, some_bind, ofTokens_eq (named_ofLine src), Machine.assembleLine,
    Machine.assembleTokens]
  cases hs : Stmt.ofTokens (Token.ofLine src) with
  | error e => rfl
  | ok s =>
    change apply m Draft.emitted (planStmt m s) = _
    rw [planStmt_eq h (aligns_of_ofTokens hs), apply_eq]
    rfl

theorem define_eq {m : Machine} (h : m.Consistent) (label : String) (addr : Word) :
    define m label addr = some (m.define label addr) := by
  have hp : relabel AsmCause.spanless (planLabel m label addr) =
      total (((m.planLabel label addr).mapError AsmCause.spanless).map .ofPlan) := by
    rw [planLabel_eq h, relabel_total]
    cases m.planLabel label addr <;> rfl
  rw [define, hp, apply_eq]
  rfl

end Commit

section Emit

def emitText (m : Machine) (word : Word) : Option (Except AsmError Word × Machine) :=
  match Segment.text.advance m.textCursor 4 with
  | .error e => some (.error e.spanless, m)
  | .ok next => do
    let memory ← setWord m.memory m.textCursor word
    return (.ok m.textCursor, { m with memory, textCursor := next })

def emitData (m : Machine) (bytes : List Byte) (alignment : Nat) : Option (Except AsmError Word × Machine) := do
  if (← remainder m.dataCursor.toNat alignment) ≠ 0 then
    return (.error (AsmCause.misalignedData m.dataCursor).spanless, m)
  else
    match Segment.data.advance m.dataCursor bytes.length with
    | .error e => return (.error e.spanless, m)
    | .ok next =>
      let memory ← setLocated m.memory (← addresses 1 m.dataCursor bytes)
      return (.ok m.dataCursor, { m with memory, dataCursor := next })

def emitByte (m : Machine) (byte : Byte) : Option (Except AsmError Word × Machine) := emitData m [byte] 1

def emitHalf (m : Machine) (half : Half) : Option (Except AsmError Word × Machine) := emitData m half.bytes 2

def emitWord (m : Machine) (word : Word) : Option (Except AsmError Word × Machine) := emitData m word.bytes 4

def emitAsciiz (m : Machine) (text : String) : Option (Except AsmError Word × Machine) :=
  emitData m (utf8 text ++ [0]) 1

theorem emitText_eq (m : Machine) (word : Word) : emitText m word = some (m.emitText word) := by
  unfold emitText Machine.emitText
  cases Segment.text.advance m.textCursor 4 with
  | error e => rfl
  | ok next =>
    dsimp only
    rw [setWord_eq]
    rfl

theorem emitData_eq (m : Machine) (bytes : List Byte) {alignment : Nat} (h : 0 < alignment) :
    emitData m bytes alignment = some (m.emitData bytes alignment) := by
  unfold emitData Machine.emitData
  rw [remainder_eq _ h, some_bind]
  split
  · rfl
  · cases hn : Segment.data.advance m.dataCursor bytes.length with
    | error e => rfl
    | ok next =>
      have hstop : m.dataCursor.toNat + bytes.length ≤ 0x10040000 := (Segment.advance_eq_ok_iff.mp hn).1
      dsimp only
      rw [addresses_eq (by omega), some_bind, setLocated_located]
      rfl

theorem emitByte_eq (m : Machine) (byte : Byte) : emitByte m byte = some (m.emitByte byte) :=
  emitData_eq m [byte] Nat.one_pos

theorem emitHalf_eq (m : Machine) (half : Half) : emitHalf m half = some (m.emitHalf half) :=
  emitData_eq m half.bytes Nat.two_pos

theorem emitWord_eq (m : Machine) (word : Word) : emitWord m word = some (m.emitWord word) :=
  emitData_eq m word.bytes (by decide)

theorem emitAsciiz_eq (m : Machine) (text : String) : emitAsciiz m text = some (m.emitAsciiz text) :=
  emitData_eq m (utf8 text ++ [0]) Nat.one_pos

end Emit

end MipsMachine.Checked
