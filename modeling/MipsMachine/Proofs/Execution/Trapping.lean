import MipsMachine.Proofs.Execution.Iteration
import MipsMachine.Proofs.Execution.Possible

/-!
Trapping on overflow matters only where it traps. Up to the first overflow, a machine that traps and one that
wraps around go through the same states; there the first one fails and the second one goes on.
-/

namespace MipsMachine

def NoOverflow {α : Type} (result : Except Fault α) : Prop :=
  ∀ f, result = .error f → f.cause ≠ .integerOverflow

namespace Machine

section NoOverflow

variable {m : Machine}

theorem noOverflow_execute (h : m.flags.trapOnOverflow = false) (i : Instr) : NoOverflow (m.execute i) := by
  intro f hf ho
  rw [trap_of_overflow hf ho] at h
  cases h

theorem fetch_ne_overflow {e : ExecError} (h : m.fetch = .error e) : e ≠ .integerOverflow := by
  by_cases hc : m.symbols.hasUnresolved = true → m.symbols.fixupAt m.pc = none
  · rw [fetch_settled hc] at h
    split at h
    · cases h
      exact fun he => nomatch he
    · cases hr : m.memory.read m.pc .word with
      | error d =>
        rw [hr] at h
        cases h
        rcases Memory.checkAccess_error (Memory.read_error hr) with rfl | rfl <;> exact fun he => nomatch he
      | ok w =>
        rw [hr] at h
        change Instr.decode w = .error e at h
        unfold Instr.decode at h
        split at h <;> cases h
        exact fun he => nomatch he
  · obtain ⟨hu, hf⟩ := Classical.not_imp.mp hc
    obtain ⟨f, hf⟩ := Option.ne_none_iff_exists'.mp hf
    rw [fetch_covered hu hf] at h
    cases h
    exact fun he => nomatch he

end NoOverflow

inductive Traps {α : Type} : Except Fault α → Except Fault α → Prop
  | same {result : Except Fault α} (h : NoOverflow result) : Traps result result
  | overflow (console : Console) (a : α) : Traps (.error ⟨.integerOverflow, console⟩) (.ok a)

def withTrap (m : Machine) (trap : Bool) : Machine := { m with flags := { m.flags with trapOnOverflow := trap } }

theorem traps_writing {m : Machine} {trapping wrapping : Except ExecError Word} (h : Wraps trapping wrapping)
    (r : Reg) : Traps (do return m.writing r (← m.lift trapping)) (do return m.writing r (← m.lift wrapping)) := by
  obtain ⟨v, rfl, rfl | rfl⟩ := h
  · exact .same fun _ he => nomatch he
  · exact .overflow m.console (m.writing r v)

theorem traps_execute (m : Machine) (i : Instr) :
    Traps ((m.withTrap true).execute i) ((m.withTrap false).execute i) := by
  have h : NoOverflow ((m.withTrap false).execute i) := noOverflow_execute rfl i
  cases i with
  | alu op rd rs rt => exact traps_writing op.wraps_result rd
  | imm op rt rs value => exact traps_writing op.wraps_result rt
  | jump op index => cases op <;> exact .same h
  | hiLo op r => cases op <;> exact .same h
  | _ => exact .same h

theorem traps_effect (m : Machine) : Traps (m.withTrap true).effect (m.withTrap false).effect := by
  have hf : (m.withTrap false).fetch = (m.withTrap true).fetch := rfl
  unfold effect
  rw [hf]
  cases hi : (m.withTrap true).fetch with
  | error e =>
    apply Traps.same
    rintro f ⟨⟩
    exact fetch_ne_overflow hi
  | ok i => exact m.traps_execute i

section Step

variable {m n s : Machine}

theorem withTrap_eq_self {trap : Bool} (h : s.flags.trapOnOverflow = trap) : s.withTrap trap = s := by
  subst h
  rfl

theorem step_withTrap (h : s.flags.trapOnOverflow = true) :
    (s.step.1 ≠ .error .integerOverflow ∧ (s.withTrap false).step = (s.step.1, s.step.2.withTrap false)) ∨
    (s.step = (.error .integerOverflow, s) ∧ ∃ n, (s.withTrap false).step = (.ok (), n)) := by
  have ht := s.traps_effect
  rw [withTrap_eq_self h] at ht
  unfold step
  generalize he : s.effect = trapping at ht
  generalize hw : (s.withTrap false).effect = wrapping at ht
  cases ht with
  | same hn =>
    left
    cases trapping with
    | ok e => exact ⟨fun he => (nomatch he), rfl⟩
    | error f => exact ⟨fun hc => hn f rfl (Except.error.inj hc), rfl⟩
  | overflow console e =>
    right
    have hs : s.step = (.error .integerOverflow, { s with console }) := by
      unfold step
      rw [he]
    have hc : console = s.console := (failedStep_of_step hs).console fun he => nomatch he
    exact ⟨by rw [hc], _, rfl⟩

theorem step_withTrap_ok (h : s.flags.trapOnOverflow = true) (hs : s.step = (.ok (), n)) :
    (s.withTrap false).step = (.ok (), n.withTrap false) ∧ n.flags.trapOnOverflow = true := by
  refine ⟨?_, (step_frame hs).1 ▸ h⟩
  rcases step_withTrap h with ⟨-, hw⟩ | ⟨ho, -⟩
  · rw [hw, hs]
  · rw [hs] at ho
    cases ho

theorem Takes.withTrap {k : Nat} (h : m.flags.trapOnOverflow = true) (hk : m.Takes k s) :
    (m.withTrap false).Takes k (s.withTrap false) ∧ s.flags.trapOnOverflow = true := by
  induction k generalizing s with
  | zero =>
    obtain rfl := hk.unique (takes_zero m)
    exact ⟨takes_zero _, h⟩
  | succ k ih =>
    obtain ⟨t, ht, hs⟩ := takes_succ_iff.mp hk
    obtain ⟨htw, htrap⟩ := ih ht
    obtain ⟨hsw, hstrap⟩ := step_withTrap_ok htrap hs
    exact ⟨takes_succ_iff.mpr ⟨_, htw, hsw⟩, hstrap⟩

end Step

section First

variable {m s u : Machine} {limit : Option Nat} {k j : Nat}

theorem First.along (h : m.flags.trapOnOverflow = true) (hk : First limit m k s) (hj : j < k)
    (hu : m.Takes j u) :
    (m.withTrap false).Takes j (u.withTrap false) ∧ ¬ Final limit j (u.withTrap false) := by
  obtain ⟨t, t', ht, hs, -⟩ := hk.reached.next hj
  obtain rfl := ht.unique hu
  obtain ⟨hw, htrap⟩ := ht.withTrap h
  have hends : ¬ Ends limit j t := fun he => hk.least j hj t ht (.inl he)
  exact ⟨hw, not_final_of_step hends (step_withTrap_ok htrap hs).1⟩

theorem First.withTrap (h : m.flags.trapOnOverflow = true) (hk : First limit m k s)
    (hno : Ends limit k s ∨ s.step.1 ≠ .error .integerOverflow) :
    First limit (m.withTrap false) k (s.withTrap false) := by
  obtain ⟨hw, htrap⟩ := hk.reached.withTrap h
  refine ⟨hw, ?_, fun j hj u hu => ?_⟩
  · rcases hk.final with he | ⟨e, he⟩
    · exact .inl he
    · rcases hno with hends | hne
      · exact .inl hends
      · rcases step_withTrap htrap with ⟨-, hs⟩ | ⟨ho, -⟩
        · exact .inr ⟨e, (congrArg Prod.fst hs).trans he⟩
        · exact (hne (congrArg Prod.fst ho)).elim
  · obtain ⟨t, -, ht, -⟩ := hk.reached.next hj
    obtain ⟨htw, hn⟩ := hk.along h hj ht
    exact hu.unique htw ▸ hn

end First

/--
After `k` steps the trapping machine `t` fails at `s` with an overflow. A run of the wrapping machine `w` has
come the same way, and its next step succeeds.
-/
structure PartsAt (limit : Option Nat) (t w : Machine) (k : Nat) (s : Machine) : Prop where
  reached : t.Takes k s
  overflow : s.step = (.error .integerOverflow, s)
  along : ∀ j ≤ k, ∀ u, t.Takes j u → w.Takes j (u.withTrap false) ∧ ¬ Final limit j (u.withTrap false)
  onward : ∃ n, (s.withTrap false).step = (.ok (), n)

theorem First.partsAt {m s : Machine} {limit : Option Nat} {k : Nat} (h : m.flags.trapOnOverflow = true)
    (hk : First limit m k s) (hn : ¬ Ends limit k s) (ho : s.step = (.error .integerOverflow, s)) :
    PartsAt limit m (m.withTrap false) k s := by
  obtain ⟨hw, htrap⟩ := hk.reached.withTrap h
  obtain ⟨n, hs⟩ : ∃ n, (s.withTrap false).step = (.ok (), n) := by
    rcases step_withTrap htrap with ⟨hne, -⟩ | ⟨-, hs⟩
    · exact (hne (congrArg Prod.fst ho)).elim
    · exact hs
  refine ⟨hk.reached, ho, fun j hj u hu => ?_, n, hs⟩
  rcases Nat.lt_or_eq_of_le hj with hj | rfl
  · exact hk.along h hj hu
  · obtain rfl := hu.unique hk.reached
    exact ⟨hw, not_final_of_step hn hs⟩

/-- Two machines that differ only in what they do on overflow run alike up to the first overflow. -/
theorem runWithLimit_withTrap (m : Machine) (limit : BitVec 64) :
    ∃ r, (m.withTrap true).runWithLimit limit = some r ∧
      (r.result ≠ .error .integerOverflow →
        (m.withTrap false).runWithLimit limit = some ⟨r.result, (), r.machine.withTrap false⟩) ∧
      (r.result = .error .integerOverflow →
        ∃ k, PartsAt (some limit.toNat) (m.withTrap true).resumed (m.withTrap false).resumed k r.machine) := by
  cases hf : m.symbols.fixups with
  | cons f fs =>
    have hrun (trap : Bool) : (m.withTrap trap).runWithLimit limit =
        some ⟨.error (.unresolvedFixup f.label), (), m.withTrap trap⟩ := runWhile_pending hf
    refine ⟨_, hrun true, fun _ => hrun false, fun he => ?_⟩
    cases he
  | nil =>
    obtain ⟨k, hk, s, hfirst⟩ := (m.withTrap true).resumed.exists_first_limit limit.toNat
    have htrap : (m.withTrap true).resumed.flags.trapOnOverflow = true := rfl
    obtain ⟨-, hs⟩ := hfirst.reached.withTrap htrap
    have hwrap (h : Ends (some limit.toNat) k s ∨ s.step.1 ≠ .error .integerOverflow) :
        (m.withTrap false).runWithLimit limit = some (outcome (some limit.toNat) k (s.withTrap false)) :=
      First.runWithLimit_eq hf (hfirst.withTrap htrap h) hk
    refine ⟨_, hfirst.runWithLimit_eq hf hk, ?_⟩
    unfold outcome at hwrap ⊢
    by_cases he : Ends (some limit.toNat) k s
    · have hew : Ends (some limit.toNat) k (s.withTrap false) := he
      rw [if_pos he]
      rw [if_pos hew] at hwrap
      refine ⟨fun _ => hwrap (.inl he), fun h => ?_⟩
      cases h
    · have hew : ¬ Ends (some limit.toNat) k (s.withTrap false) := he
      rw [if_neg he]
      rw [if_neg hew] at hwrap
      rcases step_withTrap hs with ⟨hne, hsw⟩ | ⟨ho, -⟩
      · rw [hsw] at hwrap
        exact ⟨fun _ => hwrap (.inr hne), fun h => (hne h).elim⟩
      · rw [ho]
        exact ⟨fun h => (h rfl).elim, fun _ => ⟨k, hfirst.partsAt htrap he ho⟩⟩

theorem runWithLimit_withTrap_add :
    let m : Machine := { holding (.alu .add ⟨8⟩ ⟨9⟩ ⟨10⟩) with
      registers := (RegisterFile.initial.set ⟨9⟩ 0x7FFFFFFF).set ⟨10⟩ 1 }
    ∃ r, (m.withTrap true).runWithLimit 1 = some r ∧ r.result = .error .integerOverflow ∧
      ∃ k, PartsAt (some 1) (m.withTrap true).resumed (m.withTrap false).resumed k r.machine := by
  intro m
  let t : Machine := (m.withTrap true).resumed
  have hfetch : t.Fetchable t.pc (Instr.alu .add ⟨8⟩ ⟨9⟩ ⟨10⟩).encode := (fetchable_holding _).congr rfl rfl
  have hexec : t.execute (.alu .add ⟨8⟩ ⟨9⟩ ⟨10⟩) = .error ⟨.integerOverflow, t.console⟩ := rfl
  have hstep : t.step.1 = .error .integerOverflow := congrArg Prod.fst (step_of_fault hfetch hexec)
  have hends : ¬ Ends (some 1) 0 t := by
    decide
  have hfirst : First (some 1) t 0 t :=
    ⟨takes_zero t, .inr ⟨_, hstep⟩, fun j hj => (Nat.not_lt_zero j hj).elim⟩
  have hrun : (m.withTrap true).runWithLimit 1 = some (outcome (some 1) 0 t) :=
    First.runWithLimit_eq rfl hfirst (Nat.zero_le _)
  have hresult : (outcome (some 1) 0 t).result = .error .integerOverflow := by
    rw [outcome, if_neg hends]
    exact hstep
  obtain ⟨r, hr, -, hparts⟩ := runWithLimit_withTrap m 1
  cases hr.symm.trans hrun
  exact ⟨_, hr, hresult, hparts hresult⟩

end Machine

end MipsMachine
