import MipsMachine.Proofs.Offset
import MipsMachine.Proofs.Statement.Operands

namespace MipsMachine

namespace SourceInstr

def immediateSign (op : ImmOp) : Signedness := if op.zeroExtends then .unsigned else .signed

inductive Means : RealOp → List Operand → SourceInstr → Prop
  | alu (op rd rs rt) : Means (.alu op) [.reg rd, .reg rs, .reg rt] (.real (.alu op rd rs rt))
  | shift (op rd rt) {n} (h : Signedness.unsigned.Fits 5 n) :
    Means (.shift op) [.reg rd, .reg rt, .int n] (.real (.shift op rd rt (.ofInt 5 n)))
  | shiftVar (op rd rt rs) :
    Means (.shiftVar op) [.reg rd, .reg rt, .reg rs] (.real (.shiftVar op rd rt rs))
  | imm (op rt rs) {n} (h : (immediateSign op).Fits 16 n) :
    Means (.imm op) [.reg rt, .reg rs, .int n] (.real (.imm op rt rs (.ofInt 16 n)))
  | lui (rt) {n} (h : Signedness.unsigned.Fits 16 n) :
    Means .lui [.reg rt, .int n] (.real (.lui rt (.ofInt 16 n)))
  | mem (op rt base) {offset} (h : Signedness.signed.Fits 16 offset) :
    Means (.mem op) [.reg rt, .mem offset base] (.real (.mem op rt base (.ofInt 16 offset)))
  | memLabel (op rt label) : Means (.mem op) [.reg rt, .label label] (.pseudo (.memLabel op rt label))
  | compare (op rs rt label) :
    Means (.compare op) [.reg rs, .reg rt, .label label] (.compare op rs rt label)
  | zero (op rs label) : Means (.zero op) [.reg rs, .label label] (.zero op rs label)
  | jump (op label) : Means (.jump op) [.label label] (.jump op label)
  | syscall : Means .syscall [] (.real .syscall)
  | jr (rs) : Means .jr [.reg rs] (.real (.jr rs))
  | jalr (rs) : Means .jalr [.reg rs] (.real (.jalr .ra rs))
  | jalrTo (rd rs) : Means .jalr [.reg rd, .reg rs] (.real (.jalr rd rs))
  | hiLo (op r) : Means (.hiLo op) [.reg r] (.real (.hiLo op r))
  | mulDiv (op rs rt) : Means (.mulDiv op) [.reg rs, .reg rt] (.real (.mulDiv op rs rt))

variable {op : RealOp} {operands : List (Located Operand)} {span : Span} {i : SourceInstr}

section Literal

variable {s : Signedness} {n : Nat} {cause : OffsetError → ParseCause} {v : Int}

theorem literal_ok_iff (h0 : 0 < n) (hn : n ≤ 32) {value : BitVec n} :
    literal s n cause v span = .ok value ↔ s.Fits n v ∧ BitVec.ofInt n v = value := by
  rw [← Offset.field_ofLiteral_iff h0 hn, literal, bind_eq_ok_iff]
  cases Offset.ofLiteral s n v <;> simp [Except.mapError]

theorem failsOnly_literal {Q : ParseError → Prop} (h : ∀ e, Q ((cause e).marked span)) :
    FailsOnly Q (literal s n cause v span) :=
  failsOnly_bind (failsOnly_mapError h _) fun _ _ => failsOnly_ok _

end Literal

theorem means_of_ofOperands (h : ofOperands op operands span = .ok i) :
    Means op (operands.map (Located.value ·)) i := by
  unfold ofOperands at h
  split at h
  case h_2 | h_4 | h_5 | h_6 =>
    obtain ⟨value, hv, h⟩ := bind_eq_ok_iff.mp h
    obtain ⟨hn, rfl⟩ := (literal_ok_iff (by decide) (by decide)).mp hv
    cases h
    constructor
    exact hn
  case h_17 => cases h
  all_goals
    cases h
    constructor

theorem ofOperands_of_means (h : Means op (operands.map (Located.value ·)) i) :
    ofOperands op operands span = .ok i := by
  generalize hv : operands.map (Located.value ·) = values at h
  cases h with
  | alu | shiftVar | compare =>
    obtain ⟨x, y, z, rfl⟩ := Operand.located_three hv
    rfl
  | shift _ _ _ h | imm _ _ _ h =>
    obtain ⟨x, y, z, rfl⟩ := Operand.located_three hv
    exact bind_eq_ok_iff.mpr ⟨_, (literal_ok_iff (by decide) (by decide)).mpr ⟨h, rfl⟩, rfl⟩
  | lui _ h | mem _ _ _ h =>
    obtain ⟨x, y, rfl⟩ := Operand.located_two hv
    exact bind_eq_ok_iff.mpr ⟨_, (literal_ok_iff (by decide) (by decide)).mpr ⟨h, rfl⟩, rfl⟩
  | memLabel | zero | jalrTo | mulDiv =>
    obtain ⟨x, y, rfl⟩ := Operand.located_two hv
    rfl
  | jump | jr | jalr | hiLo =>
    obtain ⟨x, rfl⟩ := Operand.located_one hv
    rfl
  | syscall =>
    rw [List.map_eq_nil_iff.mp hv]
    rfl

end SourceInstr

namespace Pseudo

inductive Means : PseudoOp → List Operand → Pseudo → Prop
  | move (rd rs) : Means .move [.reg rd, .reg rs] (.move rd rs)
  | li (rt) {v} (h : wordLow ≤ v ∧ v ≤ wordHigh) : Means .li [.reg rt, .int v] (.li rt v)
  | la (rt label) : Means .la [.reg rt, .label label] (.la rt label)
  | abs (rd rs) : Means .abs [.reg rd, .reg rs] (.abs rd rs)
  | neg (rd rs) : Means .neg [.reg rd, .reg rs] (.neg rd rs)
  | negu (rd rs) : Means .negu [.reg rd, .reg rs] (.negu rd rs)
  | not (rd rs) : Means .not [.reg rd, .reg rs] (.not rd rs)
  | mul (rd rs rt) : Means .mul [.reg rd, .reg rs, .reg rt] (.mul rd rs rt)
  | sgt (rd rs rt) : Means .sgt [.reg rd, .reg rs, .reg rt] (.sgt rd rs rt)
  | sge (rd rs rt) : Means .sge [.reg rd, .reg rs, .reg rt] (.sge rd rs rt)
  | ordBranch (order rs rt label) :
    Means (.ordBranch order) [.reg rs, .reg rt, .label label] (.ordBranch order rs rt label)
  | b (label) : Means .b [.label label] (.b label)

variable {op : PseudoOp} {operands : List (Located Operand)} {span : Span} {p : Pseudo}

theorem means_of_ofOperands (h : ofOperands op operands span = .ok p) :
    Means op (operands.map (Located.value ·)) p := by
  unfold ofOperands at h
  split at h
  case h_2 =>
    split at h
    case isTrue hv =>
      cases h
      exact .li _ hv
    case isFalse => cases h
  case h_13 => cases h
  all_goals
    cases h
    constructor

theorem ofOperands_of_means (h : Means op (operands.map (Located.value ·)) p) :
    ofOperands op operands span = .ok p := by
  generalize hv : operands.map (Located.value ·) = values at h
  cases h with
  | mul | sgt | sge | ordBranch =>
    obtain ⟨x, y, z, rfl⟩ := Operand.located_three hv
    rfl
  | li _ h =>
    obtain ⟨x, y, rfl⟩ := Operand.located_two hv
    exact if_pos h
  | move | la | abs | neg | negu | not =>
    obtain ⟨x, y, rfl⟩ := Operand.located_two hv
    rfl
  | b =>
    obtain ⟨x, rfl⟩ := Operand.located_one hv
    rfl

end Pseudo

namespace Directive

inductive Means : String → List Operand → Directive → Prop
  | text : Means ".text" [] .text
  | data : Means ".data" [] .data
  | word {vs} (hne : vs ≠ []) (h : ∀ v ∈ vs, wordLow ≤ v ∧ v ≤ wordHigh) :
    Means ".word" (vs.map .int) (.word (vs.map (BitVec.ofInt 32)))
  | half {vs} (hne : vs ≠ []) (h : ∀ v ∈ vs, -0x8000 ≤ v ∧ v ≤ 0xFFFF) :
    Means ".half" (vs.map .int) (.half (vs.map (BitVec.ofInt 16)))
  | byte {vs} (hne : vs ≠ []) (h : ∀ v ∈ vs, -0x80 ≤ v ∧ v ≤ 0xFF) :
    Means ".byte" (vs.map .int) (.byte (vs.map (BitVec.ofInt 8)))
  | ascii (text) : Means ".ascii" [.str text] (.ascii text)
  | asciiz (text) : Means ".asciiz" [.str text] (.asciiz text)
  | space {v} (h : 0 ≤ v ∧ v ≤ wordHigh) : Means ".space" [.int v] (.space (.ofInt 32 v))
  | align {v} (h : 0 ≤ v ∧ v ≤ 3) : Means ".align" [.int v] (.align (.ofInt 32 v))

theorem Means.head?_eq {name : String} {values : List Operand} {d : Directive} (h : Means name values d) :
    name.toList.head? = some '.' := by
  cases h <;> rfl

variable {operands : List (Located Operand)} {span : Span} {low high : Int}

theorem integer_ok_iff {operand : Located Operand} {v : Int} :
    integer low high operand = .ok v ↔ operand.value = .int v ∧ low ≤ v ∧ v ≤ high := by
  obtain ⟨value, place⟩ := operand
  cases value with
  | int w =>
    by_cases hw : low ≤ w ∧ w ≤ high
    · simp only [integer, if_pos hw]
      grind
    · simp only [integer, if_neg hw]
      grind
  | reg | label | mem | str => simp [integer, fail]

theorem mapM_integer_ok_iff {vs : List Int} :
    operands.mapM (integer low high) = .ok vs ↔
      (∀ v ∈ vs, low ≤ v ∧ v ≤ high) ∧ operands.map (Located.value ·) = vs.map .int := by
  rw [mapM_eq_ok_iff]
  induction operands generalizing vs with
  | nil => cases vs <;> simp
  | cons o os ih =>
    cases vs with
    | nil => simp
    | cons v vs =>
      rw [List.forall₂_cons, ih, integer_ok_iff, List.forall_mem_cons, List.map_cons, List.map_cons,
        List.cons.injEq]
      tauto

theorem integers_ok_iff {vs : List Int} :
    integers low high operands span = .ok vs ↔
      vs ≠ [] ∧ (∀ v ∈ vs, low ≤ v ∧ v ≤ high) ∧ operands.map (Located.value ·) = vs.map .int := by
  rw [← mapM_integer_ok_iff, integers]
  cases operands with
  | nil =>
    constructor
    · intro h
      cases h
    · rintro ⟨hne, h⟩
      exact (hne (Except.ok.inj h).symm).elim
  | cons o os =>
    rw [List.isEmpty_cons, if_neg Bool.false_ne_true, mapM_integer_ok_iff]
    refine ⟨fun h => ⟨?_, h⟩, And.right⟩
    rintro rfl
    cases h.2

theorem means_of_ofOperands {name : Located String} {d : Directive}
    (h : ofOperands name operands span = .ok d) :
    Means name.value (operands.map (Located.value ·)) d := by
  unfold ofOperands at h
  split at h
  case h_1 he | h_2 he =>
    split at h
    case isFalse => cases h
    case isTrue ho =>
      cases h
      rw [he, List.isEmpty_iff.mp ho]
      constructor
  case h_3 he | h_4 he | h_5 he =>
    obtain ⟨vs, hvs, h⟩ := bind_eq_ok_iff.mp h
    obtain ⟨hne, hv, ho⟩ := integers_ok_iff.mp hvs
    cases h
    rw [he, ho]
    constructor <;> assumption
  case h_6 he | h_7 he =>
    split at h
    case h_2 => cases h
    case h_1 =>
      cases h
      rw [he]
      constructor
  case h_8 he | h_9 he =>
    split at h
    case h_2 => cases h
    case h_1 =>
      obtain ⟨v, hv, h⟩ := bind_eq_ok_iff.mp h
      obtain ⟨ho, hv⟩ := integer_ok_iff.mp hv
      cases h
      rw [he, List.map_singleton, ho]
      constructor
      exact hv
  case h_10 => cases h

theorem ofOperands_of_means {name : Located String} {d : Directive}
    (h : Means name.value (operands.map (Located.value ·)) d) : ofOperands name operands span = .ok d := by
  obtain ⟨name, place⟩ := name
  generalize hv : operands.map (Located.value ·) = values at h
  cases h with
  | text | data =>
    rw [List.map_eq_nil_iff.mp hv]
    rfl
  | word hne h | half hne h | byte hne h =>
    exact bind_eq_ok_iff.mpr ⟨_, integers_ok_iff.mpr ⟨hne, h, hv⟩, rfl⟩
  | ascii | asciiz =>
    obtain ⟨x, rfl⟩ := Operand.located_one hv
    rfl
  | space h | align h =>
    obtain ⟨x, rfl⟩ := Operand.located_one hv
    exact bind_eq_ok_iff.mpr ⟨_, integer_ok_iff.mpr ⟨rfl, h⟩, rfl⟩

end Directive

theorem lookup_eq_some_iff_mem {α β : Type} [BEq α] [LawfulBEq α] {table : List (α × β)} {k : α} {v : β}
    (h : ∀ e ∈ table, table.lookup e.1 = some e.2) : table.lookup k = some v ↔ (k, v) ∈ table := by
  constructor
  · intro hl
    obtain ⟨before, after, rfl, -⟩ := List.lookup_eq_some_iff.mp hl
    exact List.mem_append_right _ List.mem_cons_self
  · exact h (k, v)

theorem RealOp.find?_eq_some_iff {name : String} {op : RealOp} : find? name = some op ↔ (name, op) ∈ table :=
  lookup_eq_some_iff_mem (by decide +kernel)

theorem PseudoOp.find?_eq_some_iff {name : String} {op : PseudoOp} :
    find? name = some op ↔ (name, op) ∈ table :=
  lookup_eq_some_iff_mem (by decide +kernel)

theorem RealOp.head?_ne {name : String} {op : RealOp} (h : (name, op) ∈ table) :
    name.toList.head? ≠ some '.' := by
  have hnames : ∀ e ∈ table, e.1.toList.head? ≠ some '.' := by decide +kernel
  exact hnames _ h

namespace Nucleus

inductive Means (name : String) (operands : List Operand) : Nucleus → Prop
  | real {op i} (hop : (name, op) ∈ RealOp.table) (h : SourceInstr.Means op operands i) :
    Means name operands (.instr i)
  | pseudo {op p} (hop : (name, op) ∈ PseudoOp.table) (h : Pseudo.Means op operands p) :
    Means name operands (.instr (.pseudo p))
  | directive {d} (h : Directive.Means name operands d) : Means name operands (.directive d)

variable {name : Located String} {operands : List (Located Operand)} {span : Span} {n : Nucleus}

theorem means_of_ofOperands (h : ofOperands name operands span = .ok n) :
    Means name.value (operands.map (Located.value ·)) n := by
  unfold ofOperands at h
  split at h
  case isTrue =>
    obtain ⟨d, hd, h⟩ := bind_eq_ok_iff.mp h
    cases h
    exact .directive (Directive.means_of_ofOperands hd)
  case isFalse =>
    split at h
    case h_1 hop =>
      obtain ⟨i, hi, h⟩ := bind_eq_ok_iff.mp h
      cases h
      exact .real (RealOp.find?_eq_some_iff.mp hop) (SourceInstr.means_of_ofOperands hi)
    case h_2 hop =>
      obtain ⟨p, hp, h⟩ := bind_eq_ok_iff.mp h
      cases h
      exact .pseudo (PseudoOp.find?_eq_some_iff.mp hop) (Pseudo.means_of_ofOperands hp)
    case h_3 => cases h

theorem ofOperands_real {op : RealOp} (h : (name.value, op) ∈ RealOp.table) :
    ofOperands name operands span = (SourceInstr.ofOperands op operands span).map .instr := by
  rw [ofOperands, if_neg (RealOp.head?_ne h)]
  simp only [RealOp.find?_eq_some_iff.mpr h]
  cases SourceInstr.ofOperands op operands span <;> rfl

theorem ofOperands_of_means (h : Means name.value (operands.map (Located.value ·)) n) :
    ofOperands name operands span = .ok n := by
  have hpseudo : ∀ e ∈ PseudoOp.table, e.1.toList.head? ≠ some '.' ∧ RealOp.find? e.1 = none := by
    decide +kernel
  obtain ⟨name, place⟩ := name
  cases h with
  | directive h =>
    rw [ofOperands, if_pos h.head?_eq]
    exact bind_eq_ok_iff.mpr ⟨_, Directive.ofOperands_of_means h, rfl⟩
  | real hop h =>
    rw [ofOperands_real hop, SourceInstr.ofOperands_of_means h]
    rfl
  | pseudo hop h =>
    obtain ⟨hdot, hnone⟩ := hpseudo _ hop
    rw [ofOperands, if_neg hdot, hnone, PseudoOp.find?_eq_some_iff.mpr hop]
    exact bind_eq_ok_iff.mpr ⟨_, Pseudo.ofOperands_of_means h, rfl⟩

end Nucleus

end MipsMachine
