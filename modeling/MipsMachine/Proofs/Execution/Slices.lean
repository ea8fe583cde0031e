import MipsMachine.Proofs.Execution.Iteration
import MipsMachine.Proofs.Symbols.Ledger

namespace MipsMachine.Machine

variable {m s t u : Machine} {limit limit' : Option Nat} {a b i j k : Nat}

theorem Takes.add (hs : m.Takes k s) (ht : s.Takes j t) : m.Takes (k + j) t := by
  induction j generalizing t with
  | zero =>
    obtain rfl := ht.unique (takes_zero s)
    exact hs
  | succ j ih =>
    obtain ⟨u, hu, hstep⟩ := takes_succ_iff.mp ht
    exact takes_succ_iff.mpr ⟨u, ih hu, hstep⟩

theorem Takes.rest (hs : m.Takes k s) (ht : m.Takes (k + j) t) : s.Takes j t := by
  induction j generalizing t with
  | zero =>
    obtain rfl := ht.unique hs
    exact takes_zero t
  | succ j ih =>
    obtain ⟨u, hu, hstep⟩ := takes_succ_iff.mp ht
    exact takes_succ_iff.mpr ⟨u, ih hu, hstep⟩

section Limits

theorem Ends.of_ne (h : Ends limit k s) (hl : limit ≠ some k) : Ends limit' k s := by
  rcases h with hpc | hlimit | hstop
  · exact .inl hpc
  · exact (hl hlimit).elim
  · exact .inr (.inr hstop)

theorem Final.of_ne (h : Final limit k s) (hl : limit ≠ some k) : Final limit' k s :=
  h.imp_left fun he => he.of_ne hl

theorem First.of_ne (h : First limit m k s) (hf : Final limit' k s) (hl : ∀ j < k, limit' ≠ some j) :
    First limit' m k s where
  reached := h.reached
  final := hf
  least j hj t ht hft := h.least j hj t ht (hft.of_ne (hl j hj))

end Limits

section Seam

theorem ends_add_iff (h : j = 0 → u.stops = false) :
    Ends (some (a + b)) (a + j) u ↔ Ends (some b) j u := by
  have hlimit : some (a + b) = some (a + j) ↔ some b = some j := by
    simp only [Option.some.injEq, Nat.add_left_cancel_iff]
  have hstop : 0 < a + j ∧ u.stops = true ↔ 0 < j ∧ u.stops = true := by
    rcases Nat.eq_zero_or_pos j with hj | hj
    · simp only [h hj, Bool.false_eq_true, and_false]
    · simp only [hj, Nat.add_pos_right a hj]
  unfold Ends
  rw [hlimit, hstop]

theorem outcome_add (h : j = 0 → u.stops = false) : outcome (some (a + b)) (a + j) u = outcome (some b) j u := by
  unfold outcome
  simp only [ends_add_iff h]

theorem First.add (hs : First (some a) m a s) (hn : s.stops = false) (ht : First (some b) s j t) :
    First (some (a + b)) m (a + j) t := by
  have hstop {i : Nat} {u : Machine} (hu : s.Takes i u) : i = 0 → u.stops = false := by
    rintro rfl
    exact hu.unique (takes_zero s) ▸ hn
  refine ⟨hs.reached.add ht.reached, ht.final.imp_left (ends_add_iff (hstop ht.reached)).mpr, ?_⟩
  intro i hi u hu hf
  rcases Nat.lt_or_ge i a with hia | hia
  · exact hs.least i hia u hu (hf.of_ne (by simp only [ne_eq, Option.some.injEq]; omega))
  · obtain ⟨i, rfl⟩ := Nat.exists_eq_add_of_le hia
    have hrest := hs.reached.rest hu
    exact ht.least i (by omega) u hrest (hf.imp_left (ends_add_iff (hstop hrest)).mp)

end Seam

section Slice

variable {limit : BitVec 64} {r : Run Unit}

theorem fixups_runWithLimit (hf : m.symbols.fixups = []) (hr : m.runWithLimit limit = some r) :
    r.machine.symbols.fixups = [] :=
  runWhile_preserves (P := fun n => n.symbols.fixups = []) (fun _ _ h => h)
    (fun n h => (symbols_step n).symm ▸ h) (fun _ h => h) hf hr

theorem exists_first_of_ok (hr : m.runWithLimit limit = some r) (hok : r.result = .ok ())
    (hn : r.machine.stops = false) :
    m.symbols.fixups = [] ∧ ∃ k ≤ limit.toNat, First (some limit.toNat) m.resumed k r.machine ∧
      (r.machine.pc = r.machine.textCursor ∨ k = limit.toNat) := by
  cases hf : m.symbols.fixups with
  | cons f fs =>
    obtain rfl := Option.some.inj (hr.symm.trans (runWhile_pending hf))
    cases hok
  | nil =>
    obtain ⟨k, hk, s, hfirst⟩ := m.resumed.exists_first_limit limit.toNat
    obtain rfl := Option.some.inj (hr.symm.trans (hfirst.runWithLimit_eq hf hk))
    have hends : Ends (some limit.toNat) k s := by
      by_contra hne
      obtain ⟨e, he⟩ := hfirst.final.resolve_left hne
      rw [outcome, if_neg hne, he] at hok
      cases hok
    rw [outcome, if_pos hends] at hn ⊢
    refine ⟨rfl, k, hk, hfirst, ?_⟩
    rcases hends with hpc | hlimit | ⟨-, hstop⟩
    · exact .inl hpc
    · exact .inr (Option.some.inj hlimit).symm
    · rw [hstop] at hn
      cases hn

end Slice

theorem runWithLimit_add {m : Machine} {a b : BitVec 64} (hab : a.toNat + b.toNat < 2 ^ 64) {r : Run Unit}
    (hr : m.runWithLimit a = some r) (hok : r.result = .ok ()) (hh : r.machine.halted = false)
    (hb : ∀ p ∈ r.machine.breakpoints, p.check r.machine = false) :
    ∃ t, r.machine.runWithLimit b = some t ∧ m.runWithLimit (a + b) = some t := by
  have hn : r.machine.stops = false := by
    simp only [stops, hh, Bool.false_or, List.any_eq_false]
    exact fun p hp => Bool.eq_false_iff.mp (hb p hp)
  obtain ⟨hf, k, hk, hfirst, hend⟩ := exists_first_of_ok hr hok hn
  have hresumed : r.machine.resumed = r.machine := by
    unfold resumed
    rw [← hh]
  have hsum : (a + b).toNat = a.toNat + b.toNat := by
    rw [BitVec.toNat_add, Nat.mod_eq_of_lt hab]
  obtain ⟨j, hj, t, hsecond⟩ := r.machine.resumed.exists_first_limit b.toNat
  refine ⟨_, hsecond.runWithLimit_eq (fixups_runWithLimit hf hr) hj, ?_⟩
  rw [hresumed] at hsecond
  rcases hend with hpc | rfl
  · -- at the end of the code no slice takes a step
    have hstill (limit : Option Nat) (i : Nat) : Ends limit i r.machine := .inl hpc
    obtain ⟨rfl, rfl⟩ := hsecond.unique (j := 0)
      ⟨takes_zero _, .inl (hstill _ 0), fun i hi => (Nat.not_lt_zero i hi).elim⟩
    have hlong : First (some (a + b).toNat) m.resumed k r.machine :=
      hfirst.of_ne (.inl (hstill _ k)) fun i hi => by
        simp only [ne_eq, Option.some.injEq]
        omega
    rw [hlong.runWithLimit_eq hf (by omega), outcome, outcome, if_pos (hstill _ _), if_pos (hstill _ _)]
  · have hlong := hfirst.add hn hsecond
    have hseam : j = 0 → t.stops = false := by
      rintro rfl
      exact hsecond.reached.unique (takes_zero _) ▸ hn
    rw [← outcome_add hseam, ← hsum]
    rw [← hsum] at hlong
    exact hlong.runWithLimit_eq hf (by omega)

theorem runWithLimit_add_spin :
    let m := holding (.compare .beq .zero .zero (-1))
    ∃ r, m.runWithLimit 1 = some ⟨.ok (), (), r⟩ ∧ r = { m with count := 1 } ∧
      ∃ t, r.runWithLimit 1 = some t ∧ m.runWithLimit 2 = some t := by
  intro m
  let r : Machine := { m with count := 1 }
  have hback : m.pc + 4 + ((-1 : Half).signExtend 32 <<< 2) = m.pc := by decide
  have hexec : m.execute (.compare .beq .zero .zero (-1)) =
      .ok { m.next with pc := m.pc + 4 + ((-1 : Half).signExtend 32 <<< 2) } := rfl
  rw [hback] at hexec
  have hstep : m.step = (.ok (), r) := step_of_execute (fetchable_holding _) hexec
  have hfirst : First (some 1) m.resumed 1 r := by
    refine ⟨takes_one hstep, .inl (.inr (.inl rfl)), fun j hj u hu => ?_⟩
    obtain rfl : j = 0 := by omega
    obtain rfl := hu.unique (takes_zero _)
    exact not_final_of_step (by decide) hstep
  have hrun : m.runWithLimit 1 = some (outcome (some 1) 1 r) := First.runWithLimit_eq rfl hfirst (Nat.le_refl 1)
  have hends : Ends (some 1) 1 r := .inr (.inl rfl)
  rw [outcome, if_pos hends] at hrun
  have hnone : ∀ p ∈ r.breakpoints, p.check r = false := fun p hp => (List.not_mem_nil hp).elim
  obtain ⟨t, hnext, hlong⟩ := runWithLimit_add (b := 1) (by decide) hrun rfl rfl hnone
  have htwo : (1 + 1 : BitVec 64) = 2 := by decide
  rw [htwo] at hlong
  exact ⟨r, hrun, rfl, t, hnext, hlong⟩

end MipsMachine.Machine
