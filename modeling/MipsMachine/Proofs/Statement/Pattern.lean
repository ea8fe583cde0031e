import MipsMachine.Proofs.Statement.Forms

namespace MipsMachine

def ParseCause.OfRange : ParseCause → Prop
  | immOutOfRange _ | shiftOutOfRange | valueOutOfRange .. => True
  | _ => False

namespace Operand

inductive Fills : List OperandKind → List (Located Operand) → Prop
  | nil : Fills [] []
  | reg {kinds os} (r place) (h : Fills kinds os) : Fills (.reg :: kinds) (⟨.reg r, place⟩ :: os)
  | int {kinds os} (v place) (h : Fills kinds os) : Fills (.int :: kinds) (⟨.int v, place⟩ :: os)
  | label {kinds os} (l place) (h : Fills kinds os) : Fills (.label :: kinds) (⟨.label l, place⟩ :: os)
  | mem {kinds os} (offset r place) (h : Fills kinds os) :
    Fills (.mem :: kinds) (⟨.mem offset r, place⟩ :: os)

theorem fills_iff {pattern : List OperandKind} {operands : List (Located Operand)} :
    Fills pattern operands ↔ operands.map (·.value.kind?) = pattern.map some := by
  constructor
  · intro h
    induction h with
    | nil => rfl
    | reg _ _ _ ih | int _ _ _ ih | label _ _ _ ih | mem _ _ _ _ ih => exact congrArg _ ih
  · intro h
    induction operands generalizing pattern with
    | nil =>
      rw [List.map_eq_nil_iff.mp h.symm]
      exact .nil
    | cons o os ih =>
      obtain ⟨kind, kinds, rfl, hkind, hkinds⟩ := List.map_eq_cons_iff.mp h.symm
      have hos := ih hkinds.symm
      obtain ⟨value, place⟩ := o
      cases value with
      | reg r => cases hkind; exact .reg r place hos
      | int v => cases hkind; exact .int v place hos
      | label l => cases hkind; exact .label l place hos
      | mem offset r => cases hkind; exact .mem offset r place hos
      | str text => cases hkind

def Match (allowed : List OperandKind → Prop) (operands : List (Located Operand)) : Prop :=
  ∃ pattern, allowed pattern ∧ operands.map (·.value.kind?) = pattern.map some

@[simp]
def InRange (holds : Int → Prop) : Operand → Prop
  | int v | mem v _ => holds v
  | reg _ | label _ | str _ => True

def AllInRange (holds : Int → Prop) (operands : List (Located Operand)) : Prop :=
  ∀ o ∈ operands, o.value.InRange holds

section AllInRange

variable {holds : Int → Prop}

@[simp]
theorem allInRange_nil : AllInRange holds [] := fun _ h => (List.not_mem_nil h).elim

@[simp]
theorem allInRange_cons {o : Located Operand} {os : List (Located Operand)} :
    AllInRange holds (o :: os) ↔ o.value.InRange holds ∧ AllInRange holds os :=
  List.forall_mem_cons

end AllInRange

/-- The kinds of the operands decide whether they are a mismatch, and else their integers whether all is well. -/
structure Answers {α : Type} (allowed : List OperandKind → Prop) (holds : Int → Prop)
    (operands : List (Located Operand)) (mismatch : ParseError) (answer : Except ParseError α) : Prop where
  mismatch_iff : answer = .error mismatch ↔ ¬ Match allowed operands
  ok_iff : (∃ a, answer = .ok a) ↔ Match allowed operands ∧ AllInRange holds operands

structure Ranged {α : Type} (inRange : Prop) (answer : Except ParseError α) : Prop where
  ok_iff : (∃ a, answer = .ok a) ↔ inRange
  fails : FailsOnly (fun e => e.cause.OfRange) answer

section Ranged

variable {α β : Type} {p q : Prop} {answer : Except ParseError α}

theorem ranged_ok (a : α) (h : p) : Ranged p (.ok a : Except ParseError α) :=
  ⟨⟨fun _ => h, fun _ => ⟨a, rfl⟩⟩, failsOnly_ok a⟩

theorem ranged_error {e : ParseError} (he : e.cause.OfRange) (h : ¬ p) :
    Ranged p (.error e : Except ParseError α) :=
  ⟨⟨fun ⟨_, ha⟩ => (nomatch ha), fun hp => (h hp).elim⟩, failsOnly_error he⟩

theorem Ranged.map (h : Ranged p answer) (f : α → β) (hq : q ↔ p) : Ranged q (do return f (← answer)) := by
  refine ⟨?_, failsOnly_bind h.fails fun _ _ => failsOnly_ok _⟩
  rw [hq, ← h.ok_iff]
  cases answer with
  | ok a => exact ⟨fun _ => ⟨a, rfl⟩, fun _ => ⟨f a, rfl⟩⟩
  | error e => exact ⟨fun ⟨_, h⟩ => (nomatch h), fun ⟨_, h⟩ => (nomatch h)⟩

theorem answers_of_ranged {allowed : List OperandKind → Prop} {holds : Int → Prop}
    {operands : List (Located Operand)} {pattern : List OperandKind} {span : Span}
    (hno : ¬ Match allowed operands → answer = .error ((ParseCause.patternMismatch pattern).marked span))
    (hyes : Match allowed operands → Ranged (AllInRange holds operands) answer) :
    Answers allowed holds operands ((ParseCause.patternMismatch pattern).marked span) answer := by
  constructor
  · exact ⟨fun h hm => (hyes hm).fails _ h, hno⟩
  · constructor
    · rintro ⟨a, ha⟩
      have hm : Match allowed operands := by
        by_contra hn
        cases ha.symm.trans (hno hn)
      exact ⟨hm, (hyes hm).ok_iff.mp ⟨a, ha⟩⟩
    · rintro ⟨hm, hr⟩
      exact (hyes hm).ok_iff.mpr hr

end Ranged

end Operand

open Operand

inductive RealOp.Allows : RealOp → List OperandKind → Prop
  | format (op) : Allows op op.format.pattern
  | address (op) : Allows (.mem op) [.reg, .label]
  | destination : Allows .jalr [.reg, .reg]

@[simp]
def RealOp.Holds : RealOp → Int → Prop
  | shift _, v => Signedness.unsigned.Fits 5 v
  | imm op, v => (SourceInstr.immediateSign op).Fits 16 v
  | lui, v => Signedness.unsigned.Fits 16 v
  | mem _, v => Signedness.signed.Fits 16 v
  | _, _ => True

@[simp]
def PseudoOp.Holds : PseudoOp → Int → Prop
  | li, v => wordLow ≤ v ∧ v ≤ wordHigh
  | _, _ => True

namespace SourceInstr

variable {op : RealOp} {operands : List (Located Operand)}

theorem ranged_literal (s : Signedness) {n : Nat} (cause : OffsetError → ParseCause) (hc : ∀ e, (cause e).OfRange)
    (h0 : 0 < n) (hn : n ≤ 32) (v : Int) (place : Span) : Ranged (s.Fits n v) (literal s n cause v place) := by
  constructor
  · simp [literal_ok_iff h0 hn]
  · exact failsOnly_literal hc

theorem ranged_immediate (s : Signedness) (v : Int) (place : Span) :
    Ranged (s.Fits 16 v) (immediate s v place) :=
  ranged_literal s .immOutOfRange (fun _ => trivial) (by decide) (by decide) v place

theorem ranged_shiftAmount (v : Int) (place : Span) :
    Ranged (Signedness.unsigned.Fits 5 v) (shiftAmount v place) :=
  ranged_literal .unsigned (fun _ => .shiftOutOfRange) (fun _ => trivial) (by decide) (by decide) v place

theorem ranged_of_match (h : Match op.Allows operands) (span : Span) :
    Ranged (AllInRange op.Holds operands) (ofOperands op operands span) := by
  obtain ⟨pattern, ha, hk⟩ := h
  have hf := fills_iff.mpr hk
  cases ha with
  | address op =>
    match operands, hf with
    | _, .reg _ _ (.label _ _ .nil) => exact ranged_ok _ (by simp)
  | destination =>
    match operands, hf with
    | _, .reg _ _ (.reg _ _ .nil) => exact ranged_ok _ (by simp)
  | format =>
    cases op with
    | alu op | shiftVar op =>
      match operands, hf with
      | _, .reg _ _ (.reg _ _ (.reg _ _ .nil)) => exact ranged_ok _ (by simp)
    | shift op =>
      match operands, hf with
      | _, .reg _ _ (.reg _ _ (.int v place .nil)) => exact (ranged_shiftAmount v place).map _ (by simp)
    | imm op =>
      match operands, hf with
      | _, .reg _ _ (.reg _ _ (.int v place .nil)) =>
        exact (ranged_immediate _ v place).map _ (by simp [immediateSign])
    | lui =>
      match operands, hf with
      | _, .reg _ _ (.int v place .nil) => exact (ranged_immediate _ v place).map _ (by simp)
    | mem op =>
      match operands, hf with
      | _, .reg _ _ (.mem v _ place .nil) => exact (ranged_immediate _ v place).map _ (by simp)
    | compare op =>
      match operands, hf with
      | _, .reg _ _ (.reg _ _ (.label _ _ .nil)) => exact ranged_ok _ (by simp)
    | zero op =>
      match operands, hf with
      | _, .reg _ _ (.label _ _ .nil) => exact ranged_ok _ (by simp)
    | jump op =>
      match operands, hf with
      | _, .label _ _ .nil => exact ranged_ok _ (by simp)
    | syscall =>
      match operands, hf with
      | _, .nil => exact ranged_ok _ (by simp)
    | jr | jalr | hiLo op =>
      match operands, hf with
      | _, .reg _ _ .nil => exact ranged_ok _ (by simp)
    | mulDiv op =>
      match operands, hf with
      | _, .reg _ _ (.reg _ _ .nil) => exact ranged_ok _ (by simp)

theorem mismatch_of_not_match (h : ¬ Match op.Allows operands) (span : Span) :
    ofOperands op operands span = .error ((ParseCause.patternMismatch op.format.pattern).marked span) := by
  unfold ofOperands
  split
  case h_7 => exact (h ⟨_, .address _, rfl⟩).elim
  case h_14 => exact (h ⟨_, .destination, rfl⟩).elim
  case h_17 => rfl
  all_goals exact (h ⟨_, .format _, rfl⟩).elim

theorem answers_ofOperands (op : RealOp) (operands : List (Located Operand)) (span : Span) :
    Answers op.Allows op.Holds operands ((ParseCause.patternMismatch op.format.pattern).marked span)
      (ofOperands op operands span) :=
  answers_of_ranged (mismatch_of_not_match · span) (ranged_of_match · span)

end SourceInstr

namespace Pseudo

variable {op : PseudoOp} {operands : List (Located Operand)}

theorem ranged_of_match (h : Match (· = op.pattern) operands) (span : Span) :
    Ranged (AllInRange op.Holds operands) (ofOperands op operands span) := by
  obtain ⟨pattern, rfl, hk⟩ := h
  have hf := fills_iff.mpr hk
  cases op with
  | move | abs | neg | negu | not =>
    match operands, hf with
    | _, .reg _ _ (.reg _ _ .nil) => exact ranged_ok _ (by simp)
  | li =>
    match operands, hf with
    | _, .reg _ _ (.int v place .nil) =>
      rw [ofOperands]
      split
      case isTrue hv => exact ranged_ok _ (by simpa using hv)
      case isFalse hv => exact ranged_error trivial (by simpa using hv)
  | la =>
    match operands, hf with
    | _, .reg _ _ (.label _ _ .nil) => exact ranged_ok _ (by simp)
  | mul | sgt | sge =>
    match operands, hf with
    | _, .reg _ _ (.reg _ _ (.reg _ _ .nil)) => exact ranged_ok _ (by simp)
  | ordBranch order =>
    match operands, hf with
    | _, .reg _ _ (.reg _ _ (.label _ _ .nil)) => exact ranged_ok _ (by simp)
  | b =>
    match operands, hf with
    | _, .label _ _ .nil => exact ranged_ok _ (by simp)

theorem mismatch_of_not_match (h : ¬ Match (· = op.pattern) operands) (span : Span) :
    ofOperands op operands span = .error ((ParseCause.patternMismatch op.pattern).marked span) := by
  unfold ofOperands
  split
  case h_13 => rfl
  all_goals exact (h ⟨_, rfl, rfl⟩).elim

theorem answers_ofOperands (op : PseudoOp) (operands : List (Located Operand)) (span : Span) :
    Answers (· = op.pattern) op.Holds operands ((ParseCause.patternMismatch op.pattern).marked span)
      (ofOperands op operands span) :=
  answers_of_ranged (mismatch_of_not_match · span) (ranged_of_match · span)

end Pseudo

end MipsMachine
