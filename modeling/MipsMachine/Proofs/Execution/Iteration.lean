import Mathlib.Data.Nat.Find
import MipsMachine.Proofs.Execution.FailedStep
import MipsMachine.Proofs.Execution.Stepping

namespace MipsMachine.Machine

def resumed (m : Machine) : Machine := { m with halted := false }

def Ends (limit : Option Nat) (k : Nat) (s : Machine) : Prop :=
  s.pc = s.textCursor ∨ limit = some k ∨ (0 < k ∧ s.stops = true)

instance (limit : Option Nat) (k : Nat) (s : Machine) : Decidable (Ends limit k s) :=
  inferInstanceAs (Decidable (_ ∨ _ ∨ _))

def Final (limit : Option Nat) (k : Nat) (s : Machine) : Prop := Ends limit k s ∨ ∃ e, s.step.1 = .error e

def outcome (limit : Option Nat) (k : Nat) (s : Machine) : Run Unit :=
  if Ends limit k s then ⟨.ok (), (), s⟩ else ⟨s.step.1, (), s.step.2⟩

section Takes

variable {m s t : Machine} {j k : Nat}

theorem Takes.unique (hs : m.Takes k s) (ht : m.Takes k t) : s = t := hs.2.symm.trans ht.2

theorem takes_succ_iff : m.Takes (k + 1) s ↔ ∃ t, m.Takes k t ∧ t.step = (.ok (), s) := by
  induction k generalizing m with
  | zero =>
    constructor
    · rintro ⟨hok, rfl⟩
      refine ⟨m, takes_zero m, ?_⟩
      rw [steps] at hok ⊢
      cases hs : m.step with
      | mk result m' =>
        rw [hs] at hok
        cases result with
        | error e => cases hok
        | ok u => rfl
    · rintro ⟨t, ⟨-, rfl⟩, hs⟩
      exact takes_one hs
  | succ k ih =>
    constructor
    · intro h
      cases hs : m.step with
      | mk result m' =>
        unfold Takes steps at h
        rw [hs] at h
        cases result with
        | error e => cases h.1
        | ok u =>
          obtain ⟨t, ht, hts⟩ := ih.mp h
          exact ⟨t, .cons hs ht, hts⟩
    · rintro ⟨t, ht, hts⟩
      cases hs : m.step with
      | mk result m' =>
        unfold Takes steps at ht
        rw [hs] at ht
        cases result with
        | error e => cases ht.1
        | ok u => exact .cons hs (ih.mpr ⟨t, ht, hts⟩)

theorem Takes.next (h : m.Takes k s) (hj : j < k) :
    ∃ t t', m.Takes j t ∧ t.step = (.ok (), t') ∧ m.Takes (j + 1) t' := by
  induction k generalizing s with
  | zero => exact (Nat.not_lt_zero j hj).elim
  | succ k ih =>
    obtain ⟨t, ht, hs⟩ := takes_succ_iff.mp h
    rcases Nat.lt_succ_iff_lt_or_eq.mp hj with hj | rfl
    · exact ih ht hj
    · exact ⟨t, s, ht, hs, h⟩

theorem step_frame (h : m.step = (.ok (), s)) : s.flags = m.flags ∧ s.count = m.count + 1 := by
  obtain ⟨e, -, rfl⟩ := effect_of_step h
  exact ⟨rfl, rfl⟩

theorem Takes.count (h : m.Takes k s) : s.count = m.count + BitVec.ofNat 64 k := by
  induction k generalizing s with
  | zero =>
    obtain rfl := h.unique (takes_zero m)
    exact (BitVec.add_zero _).symm
  | succ k ih =>
    obtain ⟨t, ht, hs⟩ := takes_succ_iff.mp h
    rw [(step_frame hs).2, ih ht, BitVec.ofNat_add, BitVec.add_assoc]
    rfl

theorem takes_or_fails (m : Machine) (n : Nat) :
    (∃ s, m.Takes n s) ∨ ∃ k < n, ∃ s, m.Takes k s ∧ ∃ e, s.step.1 = .error e := by
  induction n with
  | zero => exact .inl ⟨m, takes_zero m⟩
  | succ n ih =>
    rcases ih with ⟨s, hs⟩ | ⟨k, hk, hfail⟩
    · cases hstep : s.step with
      | mk result t =>
        cases result with
        | ok u => exact .inl ⟨t, takes_succ_iff.mpr ⟨s, hs, hstep⟩⟩
        | error e => exact .inr ⟨n, Nat.lt_succ_self n, s, hs, e, congrArg Prod.fst hstep⟩
    · exact .inr ⟨k, Nat.lt_succ_of_lt hk, hfail⟩

end Takes

structure First (limit : Option Nat) (m : Machine) (k : Nat) (s : Machine) : Prop where
  reached : m.Takes k s
  final : Final limit k s
  least : ∀ j < k, ∀ t, m.Takes j t → ¬ Final limit j t

section First

variable {m s t : Machine} {limit : Option Nat} {k : Nat}

theorem not_final_of_step (he : ¬ Ends limit k s) (hs : s.step = (.ok (), t)) :
    ¬ Final limit k s := by
  rintro (h | ⟨e, h⟩)
  · exact he h
  · rw [hs] at h
    cases h

theorem exists_first (h : m.Takes k s) (hf : Final limit k s) : ∃ j ≤ k, ∃ t, First limit m j t := by
  classical
  have hex : ∃ j t, m.Takes j t ∧ Final limit j t := ⟨k, s, h, hf⟩
  obtain ⟨t, ht, hft⟩ := Nat.find_spec hex
  refine ⟨Nat.find hex, Nat.find_le ⟨s, h, hf⟩, t, ht, hft, ?_⟩
  exact fun j hj u hu hfu => Nat.find_min hex hj ⟨u, hu, hfu⟩

theorem exists_first_limit (m : Machine) (n : Nat) : ∃ k ≤ n, ∃ s, First (some n) m k s := by
  have hf : ∃ k ≤ n, ∃ s, m.Takes k s ∧ Final (some n) k s := by
    rcases m.takes_or_fails n with ⟨s, hs⟩ | ⟨k, hk, s, hs, hfail⟩
    · exact ⟨n, Nat.le_refl n, s, hs, .inl (.inr (.inl rfl))⟩
    · exact ⟨k, Nat.le_of_lt hk, s, hs, .inr hfail⟩
  obtain ⟨k, hk, s, hs, hf⟩ := hf
  obtain ⟨j, hj, t, ht⟩ := exists_first hs hf
  exact ⟨j, Nat.le_trans hj hk, t, ht⟩

theorem First.unique {j : Nat} (hs : First limit m k s) (ht : First limit m j t) : k = j ∧ s = t := by
  have hk : k = j := by
    rcases Nat.lt_trichotomy k j with h | h | h
    · exact (ht.least k h s hs.reached hs.final).elim
    · exact h
    · exact (hs.least j h t ht.reached ht.final).elim
  subst hk
  exact ⟨rfl, hs.reached.unique ht.reached⟩

end First

section Loop

variable {wire : Tripwire Unit} {limit : Option Nat} {m s t t' : Machine} {j k fuel : Nat}

def Guards (wire : Tripwire Unit) (limit : Option Nat) (k : Nat) (s : Machine) : Prop :=
  wire () s = (decide (limit ≠ some k), (), s)

theorem loop_final (hw : Guards wire limit k s) (hf : Final limit k s) (hs : 0 < k → s.stops = false) :
    s.loop wire (fuel + 1) () = some (outcome limit k s) := by
  unfold loop outcome
  by_cases hpc : s.pc = s.textCursor
  · rw [if_pos hpc, if_pos (.inl hpc)]
  · rw [if_neg hpc, hw]
    by_cases hl : limit = some k
    · rw [if_pos (.inr (.inl hl)), hl, decide_eq_false (fun h => h rfl)]
    · have hn : ¬ Ends limit k s := by
        rintro (h | h | ⟨hk, h⟩)
        · exact hpc h
        · exact hl h
        · rw [hs hk] at h
          cases h
      obtain ⟨e, he⟩ := hf.resolve_left hn
      rw [if_neg hn, decide_eq_true hl]
      cases hstep : s.step with
      | mk result s' =>
        rw [hstep] at he
        cases he
        simp only [hstep]

theorem loop_step (hw : Guards wire limit k t) (hn : ¬ Final limit k t) (hs : t.step = (.ok (), t')) :
    t.loop wire (fuel + 1) () = if t'.stops then some ⟨.ok (), (), t'⟩ else t'.loop wire fuel () := by
  have hpc : t.pc ≠ t.textCursor := fun h => hn (.inl (.inl h))
  have hl : limit ≠ some k := fun h => hn (.inl (.inr (.inl h)))
  rw [loop, if_neg hpc, hw, decide_eq_true hl]
  simp only [hs]

theorem First.loop_eq (h : First limit m k s) (hw : ∀ i ≤ k, ∀ u, m.Takes i u → Guards wire limit i u)
    {d : Nat} (hd : j + d = k) (ht : m.Takes j t) (hs : 0 < j → t.stops = false) (hfuel : d < fuel) :
    t.loop wire fuel () = some (outcome limit k s) := by
  induction d generalizing j t fuel with
  | zero =>
    obtain ⟨fuel, rfl⟩ := Nat.exists_eq_add_of_lt hfuel
    obtain rfl : j = k := hd
    obtain rfl := ht.unique h.reached
    rw [Nat.zero_add]
    exact loop_final (hw j (Nat.le_refl j) t ht) h.final hs
  | succ d ih =>
    obtain ⟨fuel, rfl⟩ : ∃ n, fuel = n + 1 := ⟨fuel - 1, by omega⟩
    obtain ⟨u, t', hu, hstep, ht'⟩ := h.reached.next (show j < k by omega)
    obtain rfl := hu.unique ht
    rw [loop_step (hw j (by omega) u ht) (h.least j (by omega) u ht) hstep]
    by_cases hstop : t'.stops = true
    · -- the machine after the step is final, so it is the first one
      have hends : Ends limit (j + 1) t' := .inr (.inr ⟨Nat.succ_pos j, hstop⟩)
      obtain rfl : k = j + 1 := by
        by_contra hne
        exact h.least (j + 1) (by omega) t' ht' (.inl hends)
      obtain rfl := ht'.unique h.reached
      rw [if_pos hstop, outcome, if_pos hends]
    · rw [if_neg hstop]
      exact ih (by omega) ht' (fun _ => Bool.eq_false_iff.mpr hstop) (by omega)

theorem loop_eq_none (h : ∀ k s, m.Takes k s → ¬ Final limit k s)
    (hw : ∀ i u, m.Takes i u → Guards wire limit i u) (ht : m.Takes j t) :
    t.loop wire fuel () = none := by
  induction fuel generalizing j t with
  | zero => rfl
  | succ fuel ih =>
    have hn := h j t ht
    cases hs : t.step with
    | mk result t' =>
      cases result with
      | error e => exact (hn (.inr ⟨e, congrArg Prod.fst hs⟩)).elim
      | ok u =>
        have ht' : m.Takes (j + 1) t' := takes_succ_iff.mpr ⟨t, ht, hs⟩
        have hstop : t'.stops ≠ true := fun hstop =>
          h (j + 1) t' ht' (.inl (.inr (.inr ⟨Nat.succ_pos j, hstop⟩)))
        rw [loop_step (hw j t ht) hn hs, if_neg hstop]
        exact ih ht'

end Loop

section Run

variable {m s : Machine} {k : Nat}

theorem runWhile_eq {wire : Tripwire Unit} {fuel : Nat} (h : m.symbols.fixups = []) :
    m.runWhile wire fuel () = m.resumed.loop wire fuel () := by
  unfold runWhile
  rw [h]
  rfl

theorem runWhile_pending {wire : Tripwire Unit} {fuel : Nat} {f : Fixup} {fs : List Fixup}
    (h : m.symbols.fixups = f :: fs) :
    m.runWhile wire fuel () = some ⟨.error (.unresolvedFixup f.label), (), m⟩ := by
  unfold runWhile
  rw [h]

theorem guards_withinLimit {limit : BitVec 64} (h : m.Takes k s) (hk : k ≤ limit.toNat) :
    Guards (withinLimit m.count limit) (some limit.toNat) k s := by
  have hlt : k < 2 ^ 64 := Nat.lt_of_le_of_lt hk limit.isLt
  have hcount : s.count - m.count = BitVec.ofNat 64 k := by
    rw [h.count, BitVec.add_comm, BitVec.add_sub_cancel]
  have hiff : s.count - m.count < limit ↔ some limit.toNat ≠ some k := by
    rw [hcount, BitVec.lt_def, BitVec.toNat_ofNat, Nat.mod_eq_of_lt hlt, ne_eq, Option.some.injEq]
    omega
  exact congrArg (·, (), s) (decide_eq_decide.mpr hiff)

theorem First.runWithLimit_eq {limit : BitVec 64} (hf : m.symbols.fixups = [])
    (h : First (some limit.toNat) m.resumed k s) (hk : k ≤ limit.toNat) :
    m.runWithLimit limit = some (outcome (some limit.toNat) k s) := by
  unfold runWithLimit
  rw [runWhile_eq hf]
  apply h.loop_eq _ (Nat.zero_add k) (takes_zero _) (fun h => (Nat.lt_irrefl 0 h).elim) (by omega)
  intro i hi u hu
  exact guards_withinLimit (m := m.resumed) hu (Nat.le_trans hi hk)

theorem First.run_eq {fuel : Nat} (hf : m.symbols.fixups = []) (h : First none m.resumed k s) (hk : k < fuel) :
    m.run fuel = some (outcome none k s) := by
  unfold run
  rw [runWhile_eq hf]
  exact h.loop_eq (fun i _ u _ => rfl) (Nat.zero_add k) (takes_zero _) (fun h => (Nat.lt_irrefl 0 h).elim) hk

end Run

/--
The run `r` of the machine has ended after `k` steps at `s`. It has succeeded if something ended it there;
otherwise the next step has failed, which leaves `s` as it was but for a line of input that is no integer.
-/
structure EndsAt (limit : Option Nat) (m : Machine) (k : Nat) (s : Machine) (r : Run Unit) : Prop where
  first : First limit m.resumed k s
  ended : Ends limit k s → r = ⟨.ok (), (), s⟩
  failed : ¬ Ends limit k s → ∃ e, s.step = (.error e, r.machine) ∧ r.result = .error e ∧ s.FailedStep e r.machine
  count : r.machine.count = m.count + BitVec.ofNat 64 k

theorem First.endsAt {m s : Machine} {limit : Option Nat} {k : Nat} (h : First limit m.resumed k s) :
    m.EndsAt limit k s (outcome limit k s) := by
  have hcount : s.count = m.count + BitVec.ofNat 64 k := h.reached.count
  by_cases he : Ends limit k s
  · have ho : outcome limit k s = ⟨.ok (), (), s⟩ := if_pos he
    exact ⟨h, fun _ => ho, fun hn => (hn he).elim, ho ▸ hcount⟩
  · have ho : outcome limit k s = ⟨s.step.1, (), s.step.2⟩ := if_neg he
    obtain ⟨e, hfail⟩ := h.final.resolve_left he
    have hstep : s.step = (.error e, s.step.2) := Prod.ext hfail rfl
    have hf := failedStep_of_step hstep
    refine ⟨h, fun hp => (he hp).elim, fun _ => ⟨e, ho ▸ hstep, ho ▸ hfail, ho ▸ hf⟩, ?_⟩
    rw [ho]
    exact (congrArg Machine.count hf.unchanged).trans hcount

/-- A run without pending references is `step` iterated, up to the first machine that ends it. -/
theorem run_endsAt {m : Machine} (h : m.symbols.fixups = []) :
    (∀ limit : BitVec 64, ∃ r k s, m.runWithLimit limit = some r ∧ m.EndsAt (some limit.toNat) k s r) ∧
    (∀ k s, m.resumed.Takes k s → Final none k s →
      ∃ j ≤ k, ∃ r t, m.EndsAt none j t r ∧ ∀ fuel > j, m.run fuel = some r) ∧
    ((∀ k s, m.resumed.Takes k s → ¬ Final none k s) → ∀ fuel, m.run fuel = none) := by
  refine ⟨fun limit => ?_, fun k s hs hf => ?_, fun hn fuel => ?_⟩
  · obtain ⟨k, hk, s, hfirst⟩ := m.resumed.exists_first_limit limit.toNat
    exact ⟨_, k, s, hfirst.runWithLimit_eq h hk, hfirst.endsAt⟩
  · obtain ⟨j, hj, t, hfirst⟩ := exists_first hs hf
    exact ⟨j, hj, _, t, hfirst.endsAt, fun fuel hfuel => hfirst.run_eq h hfuel⟩
  · unfold run
    rw [runWhile_eq h]
    exact loop_eq_none hn (fun _ _ _ => rfl) (takes_zero _)

def holding (i : Instr) : Machine :=
  { new .initial with memory := Memory.empty.setWord 0x00400000 i.encode, textCursor := 0x00400004 }

theorem fetchable_holding (i : Instr) : (holding i).Fetchable 0x00400000 i.encode where
  aligned := by decide
  text := by decide
  settled _ hf := nomatch hf
  word := Memory.getWord_setBytes _ _ _ (by decide)

theorem run_endsAt_exit :
    let m : Machine := { holding .syscall with registers := (holding .syscall).registers.set .v0 10, halted := true }
    let s : Machine := { m with pc := 0x00400004, count := 1 }
    m.symbols.fixups = [] ∧ ∀ fuel > 1, m.run fuel = some ⟨.ok (), (), s⟩ := by
  intro m s
  have hexec : m.resumed.execute .syscall = .ok { m.resumed.next with exits := true } := rfl
  have hfetch : m.resumed.Fetchable m.pc Instr.syscall.encode := (fetchable_holding .syscall).congr rfl rfl
  have hs : m.resumed.Takes 1 s := takes_one (step_of_execute hfetch hexec)
  have hend : Final none 1 s := .inl (.inl rfl)
  obtain ⟨j, hj, r, t, hat, hrun⟩ := (run_endsAt (m := m) rfl).2.1 1 s hs hend
  have hj : j = 1 := by
    by_contra hne
    obtain rfl : j = 0 := by omega
    obtain rfl : t = m.resumed := hat.first.reached.unique (takes_zero _)
    rcases hat.first.final with (hpc | hl | hk) | ⟨e, he⟩
    · exact absurd hpc (by decide)
    · cases hl
    · exact Nat.lt_irrefl 0 hk.1
    · rw [step_of_execute hfetch hexec] at he
      cases he
  subst hj
  obtain rfl := hat.first.reached.unique hs
  obtain rfl := hat.ended (.inl rfl)
  exact ⟨rfl, hrun⟩

/-- No step is taken, but the run does not end where it has started: the line that is no integer is gone. -/
theorem runWithLimit_line_taken :
    let m : Machine := { holding .syscall with
      registers := (holding .syscall).registers.set .v0 5
      console := .buffered (.ofInput [0x78, 0x0A, 0x37]) }
    m.symbols.fixups = [] ∧ First (some 1) m.resumed 0 m.resumed ∧
      ∃ r, m.runWithLimit 1 = some r ∧ r.result = .error .invalidInput ∧ r.machine.console.readable = [0x37] ∧
        r.machine ≠ m.resumed := by
  intro m
  have hservice : Service.ofCode? (m.resumed.get .v0) = some .readInt := rfl
  have hline : m.resumed.console.nextLine = ([0x78], 2) := rfl
  have hint : Console.integer? [0x78] = none := rfl
  have hexec : m.resumed.execute .syscall = .error ⟨.invalidInput, m.console.consume 2⟩ := by
    unfold execute syscall readInt
    simp only [hservice, hline, hint, Nat.succ_ne_zero, if_false]
    rfl
  have hfetch : m.resumed.Fetchable m.pc Instr.syscall.encode := (fetchable_holding .syscall).congr rfl rfl
  have hstep : m.resumed.step = (.error .invalidInput, { m.resumed with console := m.console.consume 2 }) :=
    step_of_fault hfetch hexec
  have hfirst : First (some 1) m.resumed 0 m.resumed :=
    ⟨takes_zero _, .inr ⟨_, congrArg Prod.fst hstep⟩, fun j hj => (Nat.not_lt_zero j hj).elim⟩
  have hends : ¬ Ends (some 1) 0 m.resumed := by
    decide
  have hrun : m.runWithLimit 1 = some (outcome (some 1) 0 m.resumed) :=
    First.runWithLimit_eq rfl hfirst (Nat.zero_le _)
  rw [outcome, if_neg hends, hstep] at hrun
  refine ⟨rfl, hfirst, _, hrun, rfl, rfl, fun h => ?_⟩
  have hleft : (m.console.consume 2).readable = m.console.readable := congrArg (·.console.readable) h
  exact absurd hleft (by decide)

end MipsMachine.Machine
