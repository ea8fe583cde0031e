import MipsMachine.Execution.Run

namespace MipsMachine.Machine

variable {σ : Type} {wire : Tripwire σ} {P : Machine → Prop} {m : Machine}

theorem loop_keeps (hw : ∀ s m, P m → P (wire s m).2.2) (hstep : ∀ m, P m → P m.step.2) (h : P m)
    {fuel : Nat} {s : σ} {r : Run σ} (hr : m.loop wire fuel s = some r) :
    P r.machine ∧ ∀ e, r.result = .error e → ∃ n, P n ∧ n.step = (.error e, r.machine) := by
  induction fuel generalizing m s with
  | zero => cases hr
  | succ fuel ih =>
    unfold loop at hr
    by_cases hp : m.pc = m.textCursor
    · rw [if_pos hp] at hr
      cases hr
      exact ⟨h, fun e he => nomatch he⟩
    · rw [if_neg hp] at hr
      have hws := hw s m h
      cases hwire : wire s m with
      | mk on rest =>
        obtain ⟨s', m'⟩ := rest
        rw [hwire] at hr hws
        cases on with
        | false =>
          cases hr
          exact ⟨hws, fun e he => nomatch he⟩
        | true =>
          have hst := hstep m' hws
          cases hs : m'.step with
          | mk result m'' =>
            simp only [hs] at hr hst
            cases result with
            | error d =>
              cases hr
              refine ⟨hst, fun e he => ?_⟩
              cases he
              exact ⟨m', hws, hs⟩
            | ok u =>
              obtain ⟨⟩ := u
              by_cases hstop : m''.stops = true
              · simp only [hstop, if_true] at hr
                cases hr
                exact ⟨hst, fun e he => nomatch he⟩
              · simp only [hstop] at hr
                exact ih hst hr

theorem runWhile_preserves (hw : ∀ s m, P m → P (wire s m).2.2) (hstep : ∀ m, P m → P m.step.2)
    (hresume : ∀ m, P m → P { m with halted := false }) (h : P m) {fuel : Nat} {s : σ} {r : Run σ}
    (hr : m.runWhile wire fuel s = some r) : P r.machine := by
  unfold runWhile at hr
  split at hr
  · cases hr
    exact h
  · exact (loop_keeps hw hstep (hresume m h) hr).1

end MipsMachine.Machine
