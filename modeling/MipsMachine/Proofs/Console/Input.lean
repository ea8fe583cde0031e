import Mathlib.Data.List.TakeWhile
import MipsMachine.Console

namespace MipsMachine.Console

inductive NextLine (input : List Byte) : List Byte → Nat → Prop
  | newline {body rest : List Byte} (h : 0x0A ∉ body) (hi : input = body ++ 0x0A :: rest) :
    NextLine input body (body.length + 1)
  | last (hn : input ≠ []) (h : 0x0A ∉ input) : NextLine input input input.length

structure Piece (n : Nat) (input piece : List Byte) : Prop where
  start : piece <+: input
  length_le : piece.length ≤ n
  newline : 0x0A ∉ piece.dropLast

structure LongestPiece (n : Nat) (input piece : List Byte) : Prop extends Piece n input piece where
  longest : ∀ other, Piece n input other → other.length ≤ piece.length

section Lines

theorem takeWhile_newline (bs : List Byte) :
    (∃ rest, bs = bs.takeWhile (· ≠ 0x0A) ++ 0x0A :: rest) ∨ bs.takeWhile (· ≠ 0x0A) = bs := by
  induction bs with
  | nil => exact .inr rfl
  | cons b bs ih =>
    by_cases hb : b = 0x0A
    · exact .inl ⟨bs, by simp [hb]⟩
    · rw [List.takeWhile_cons_of_pos (by simpa using hb)]
      rcases ih with ⟨rest, hr⟩ | hr
      · exact .inl ⟨rest, congrArg (b :: ·) hr⟩
      · exact .inr (congrArg (b :: ·) hr)

theorem newline_not_mem_takeWhile (bs : List Byte) : 0x0A ∉ bs.takeWhile (· ≠ 0x0A) := by
  intro hm
  have hp := List.mem_takeWhile_imp hm
  simp at hp

theorem exists_nextLine {input : List Byte} (h : input ≠ []) : ∃ body taken, NextLine input body taken := by
  have hn := newline_not_mem_takeWhile input
  rcases takeWhile_newline input with ⟨rest, hr⟩ | hr
  · exact ⟨_, _, .newline hn hr⟩
  · exact ⟨_, _, .last h (hr ▸ hn)⟩

theorem NextLine.nextLine_eq {c : Console} {body : List Byte} {taken : Nat}
    (h : NextLine c.readable body taken) : c.nextLine = (body, taken) := by
  have hall {bs : List Byte} (hb : 0x0A ∉ bs) : ∀ b ∈ bs, decide (b ≠ 0x0A) = true :=
    fun b hm => decide_eq_true fun he => hb (he ▸ hm)
  unfold nextLine
  cases h with
  | @newline _ rest hb hi =>
    have hbody : c.readable.takeWhile (· ≠ 0x0A) = body := by
      rw [hi, List.takeWhile_append_of_pos (hall hb)]
      simp
    have hlt : body.length < c.readable.length := by
      rw [hi, List.length_append, List.length_cons]
      omega
    simp only [hbody, if_pos hlt]
  | last _ hb =>
    have hbody : c.readable.takeWhile (· ≠ 0x0A) = c.readable := List.takeWhile_eq_self_iff.mpr (hall hb)
    simp only [hbody, if_neg (Nat.lt_irrefl _)]

end Lines

section Pieces

variable {n : Nat} {b : Byte} {bs piece : List Byte}

theorem newline_not_mem_nextPiece (n : Nat) (bs : List Byte) : 0x0A ∉ (nextPiece n bs).dropLast := by
  induction bs generalizing n with
  | nil => simp [nextPiece]
  | cons b bs ih =>
    cases n with
    | zero => simp [nextPiece]
    | succ n =>
      rw [nextPiece]
      split
      · simp
      · rename_i hb
        by_cases hr : nextPiece n bs = []
        · simp [hr]
        · rw [List.dropLast_cons_of_ne_nil hr, List.mem_cons, not_or]
          exact ⟨Ne.symm hb, ih n⟩

theorem Piece.tail (h : Piece (n + 1) (b :: bs) (b :: piece)) : Piece n bs piece := by
  refine ⟨(List.cons_prefix_cons.mp h.start).2, Nat.le_of_succ_le_succ h.length_le, fun hm => h.newline ?_⟩
  have hr : piece ≠ [] := by
    rintro rfl
    cases hm
  rw [List.dropLast_cons_of_ne_nil hr]
  exact List.mem_cons_of_mem b hm

theorem Piece.length_le_nextPiece (h : Piece n bs piece) : piece.length ≤ (nextPiece n bs).length := by
  induction bs generalizing n piece with
  | nil =>
    rw [List.prefix_nil.mp h.start]
    exact Nat.zero_le _
  | cons b bs ih =>
    cases piece with
    | nil => exact Nat.zero_le _
    | cons c piece =>
      obtain ⟨rfl, -⟩ := List.cons_prefix_cons.mp h.start
      obtain ⟨n, rfl⟩ := Nat.exists_eq_add_of_le' (Nat.le_trans (Nat.le_add_left 1 _) h.length_le)
      rw [nextPiece]
      split
      case isTrue hc =>
        -- nothing can follow the newline
        have hr : piece = [] := by
          by_contra hr
          apply h.newline
          rw [List.dropLast_cons_of_ne_nil hr, hc]
          exact List.mem_cons_self
        rw [hr]
      case isFalse => exact Nat.succ_le_succ (ih h.tail)

theorem longestPiece_nextPiece (n : Nat) (input : List Byte) : LongestPiece n input (nextPiece n input) where
  start := ⟨_, nextPiece_append_drop n input⟩
  length_le := length_nextPiece_le n input
  newline := newline_not_mem_nextPiece n input
  longest _ h := h.length_le_nextPiece

theorem LongestPiece.unique {input p q : List Byte} (hp : LongestPiece n input p) (hq : LongestPiece n input q) :
    p = q := by
  have hlen : p.length = q.length := Nat.le_antisymm (hq.longest p hp.toPiece) (hp.longest q hq.toPiece)
  exact (List.prefix_of_prefix_length_le hp.start hq.start (Nat.le_of_eq hlen)).eq_of_length hlen

end Pieces

end MipsMachine.Console
