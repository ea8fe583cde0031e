import Mathlib.Data.List.Forall2

namespace MipsMachine

variable {ε α β : Type}

theorem bind_eq_ok_iff {x : Except ε α} {f : α → Except ε β} {b : β} :
    (x >>= f) = .ok b ↔ ∃ a, x = .ok a ∧ f a = .ok b := by
  cases x <;> simp [bind, Except.bind]

theorem bind_eq_error_iff {x : Except ε α} {f : α → Except ε β} {e : ε} :
    (x >>= f) = .error e ↔ x = .error e ∨ ∃ a, x = .ok a ∧ f a = .error e := by
  cases x <;> simp [bind, Except.bind]

theorem mapM_eq_ok_iff {f : α → Except ε β} {xs : List α} {ys : List β} :
    xs.mapM f = .ok ys ↔ List.Forall₂ (fun x y => f x = .ok y) xs ys := by
  induction xs generalizing ys with
  | nil =>
    rw [List.mapM_nil, List.forall₂_nil_left_iff, eq_comm]
    exact ⟨fun h => Except.ok.inj h, fun h => congrArg _ h⟩
  | cons x xs ih =>
    rw [List.mapM_cons, List.forall₂_cons_left_iff]
    constructor
    · intro h
      cases hx : f x with
      | error e => rw [hx] at h; cases h
      | ok y =>
        cases hm : xs.mapM f with
        | error e => rw [hx, hm] at h; cases h
        | ok zs =>
          rw [hx, hm] at h
          cases h
          exact ⟨y, zs, rfl, ih.mp hm, rfl⟩
    · rintro ⟨y, zs, hy, hz, rfl⟩
      rw [hy, ih.mpr hz]
      rfl

theorem mapM_append_eq_ok_iff {f : α → Except ε β} {xs ys : List α} {zs : List β} :
    (xs ++ ys).mapM f = .ok zs ↔ ∃ us vs, xs.mapM f = .ok us ∧ ys.mapM f = .ok vs ∧ zs = us ++ vs := by
  rw [List.mapM_append]
  constructor
  · intro h
    cases hx : xs.mapM f with
    | error e => rw [hx] at h; cases h
    | ok us =>
      cases hy : ys.mapM f with
      | error e => rw [hx, hy] at h; cases h
      | ok vs =>
        rw [hx, hy] at h
        cases h
        exact ⟨us, vs, rfl, rfl, rfl⟩
  · rintro ⟨us, vs, hx, hy, rfl⟩
    rw [hx, hy]
    rfl

theorem exists_of_mem_mapM {f : α → Except ε β} {xs : List α} {ys : List β} {y : β}
    (h : xs.mapM f = .ok ys) (hy : y ∈ ys) : ∃ x ∈ xs, f x = .ok y := by
  rw [mapM_eq_ok_iff] at h
  induction h with
  | nil => exact (List.not_mem_nil hy).elim
  | @cons x z xs zs hx _ ih =>
    rcases List.mem_cons.mp hy with rfl | hy
    · exact ⟨x, List.mem_cons_self, hx⟩
    · obtain ⟨w, hw, he⟩ := ih hy
      exact ⟨w, List.mem_cons_of_mem x hw, he⟩

theorem exists_mem_of_mapM {f : α → Except ε β} {xs : List α} {ys : List β} {x : α}
    (h : xs.mapM f = .ok ys) (hx : x ∈ xs) : ∃ y ∈ ys, f x = .ok y := by
  rw [mapM_eq_ok_iff] at h
  induction h with
  | nil => exact (List.not_mem_nil hx).elim
  | @cons z y xs ys hy _ ih =>
    rcases List.mem_cons.mp hx with rfl | hx
    · exact ⟨y, List.mem_cons_self, hy⟩
    · obtain ⟨w, hw, he⟩ := ih hx
      exact ⟨w, List.mem_cons_of_mem y hw, he⟩

theorem exists_mapM_eq_ok_iff {f : α → Except ε β} {xs : List α} :
    (∃ ys, xs.mapM f = .ok ys) ↔ ∀ x ∈ xs, ∃ y, f x = .ok y := by
  simp only [mapM_eq_ok_iff]
  induction xs with
  | nil => exact ⟨fun _ x hx => (List.not_mem_nil hx).elim, fun _ => ⟨[], .nil⟩⟩
  | cons x xs ih =>
    rw [List.forall_mem_cons, ← ih]
    constructor
    · rintro ⟨_, h⟩
      obtain ⟨y, ys, hy, hys, -⟩ := List.forall₂_cons_left_iff.mp h
      exact ⟨⟨y, hy⟩, ys, hys⟩
    · rintro ⟨⟨y, hy⟩, ys, hys⟩
      exact ⟨y :: ys, .cons hy hys⟩

section Errors

variable {δ : Type}

theorem mapError_bind (x : Except ε α) (f : α → Except ε β) (g : ε → δ) :
    (x >>= f).mapError g = x.mapError g >>= fun a => (f a).mapError g := by
  cases x <;> rfl

theorem mapError_mapM (f : α → Except ε β) (g : ε → δ) (xs : List α) :
    (xs.mapM f).mapError g = xs.mapM fun x => (f x).mapError g := by
  induction xs with
  | nil => rfl
  | cons x xs ih =>
    rw [List.mapM_cons, List.mapM_cons, mapError_bind, ← ih]
    refine bind_congr fun y => ?_
    rw [mapError_bind]
    rfl

end Errors

def FailsOnly (Q : ε → Prop) (x : Except ε α) : Prop := ∀ e, x = .error e → Q e

section Failures

variable {Q : ε → Prop}

theorem failsOnly_ok (a : α) : FailsOnly Q (.ok a) := fun _ h => nomatch h

theorem failsOnly_error {e : ε} (h : Q e) : FailsOnly Q (.error e : Except ε α) := by
  rintro _ ⟨⟩
  exact h

theorem failsOnly_bind {x : Except ε α} {f : α → Except ε β} (hx : FailsOnly Q x)
    (hf : ∀ a, x = .ok a → FailsOnly Q (f a)) : FailsOnly Q (x >>= f) := by
  intro e h
  rcases bind_eq_error_iff.mp h with h | ⟨a, ha, h⟩
  · exact hx e h
  · exact hf a ha e h

theorem failsOnly_mapM {f : α → Except ε β} {xs : List α} (h : ∀ x ∈ xs, FailsOnly Q (f x)) :
    FailsOnly Q (xs.mapM f) := by
  induction xs with
  | nil => exact failsOnly_ok []
  | cons x xs ih =>
    obtain ⟨hx, hxs⟩ := List.forall_mem_cons.mp h
    rw [List.mapM_cons]
    exact failsOnly_bind hx fun _ _ => failsOnly_bind (ih hxs) fun _ _ => failsOnly_ok _

theorem failsOnly_foldlM {f : β → α → Except ε β} {xs : List α} (h : ∀ b, ∀ x ∈ xs, FailsOnly Q (f b x)) (b : β) :
    FailsOnly Q (xs.foldlM f b) := by
  induction xs generalizing b with
  | nil => exact failsOnly_ok b
  | cons x xs ih =>
    rw [List.foldlM_cons]
    exact failsOnly_bind (h b x List.mem_cons_self) fun _ _ => ih (fun b y hy => h b y (List.mem_cons_of_mem x hy)) _

theorem failsOnly_mapError {δ : Type} {g : δ → ε} (h : ∀ d, Q (g d)) (x : Except δ α) :
    FailsOnly Q (x.mapError g) := by
  cases x with
  | ok a => exact failsOnly_ok a
  | error d => exact failsOnly_error (h d)

end Failures

end MipsMachine
