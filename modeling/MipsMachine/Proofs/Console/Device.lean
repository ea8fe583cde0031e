import MipsMachine.Console

namespace MipsMachine

namespace Buffered

def read (b : Buffered) : Option Byte × Buffered :=
  match b.input.access with
  | some (x :: rest) => (some x, { b with input := { b.input with bytes := rest } })
  | some [] => (none, b)
  | none => (none, b)

inductive Side where
  | input
  | output
deriving DecidableEq

def onSide (f : {α : Type} → Guarded α → Guarded α) : Side → Buffered → Buffered
  | .input, b => { b with input := f b.input }
  | .output, b => { b with output := f b.output }

def held (b : Buffered) : Side → Option Hold
  | .input => b.input.held
  | .output => b.output.held

def unpoisoned (b : Buffered) : Buffered :=
  ⟨{ b.input with poisoned := false }, { b.output with poisoned := false }⟩

end Buffered

namespace Console

open Buffered (Side)

inductive Use where
  | read
  | write (data : List Byte)
  | push (data : List Byte)
  | lock (side : Side) (hold : Hold)
  /-- One holder of a lock lets go of it; there may be others, who still hold it. -/
  | unlock (side : Side) (others : Option Hold)
  | poison (side : Side)

inductive Answer where
  | byte (next : Option Byte)
  | taken (success : Bool)
  | done

namespace Use

def outside : Use → Buffered → Buffered
  | read | write _ => id
  | push data => (·.push data)
  | lock side hold => Buffered.onSide (·.lock hold) side
  | unlock side others => Buffered.onSide (fun g => others.elim g.unlock g.lock) side
  | poison side => Buffered.onSide (·.poison) side

def poisons : Use → Bool
  | poison _ => true
  | _ => false

def holding (side : Side) (before : Option Hold) : Use → Option Hold
  | lock s hold => if s = side then some hold else before
  | unlock s others => if s = side then others else before
  | _ => before

end Use

class Device (δ : Type) where
  read : δ → Option Byte × δ
  write : List Byte → δ → Bool × δ
  share : (Buffered → Buffered) → δ → δ
  close : δ → Option (Array Byte)

instance : Device Buffered := ⟨Buffered.read, fun data b => b.write data, id, fun b => some b.output.bytes⟩

instance : Device Console := ⟨Console.read, Console.write, Console.mapBuffered, Console.close⟩

section Play

variable {δ : Type} [Device δ]

def act (u : Use) (d : δ) : Answer × δ :=
  match u with
  | .read => (Device.read d).map .byte id
  | .write data => (Device.write data d).map .taken id
  | u => (.done, Device.share u.outside d)

def play (uses : List Use) (d : δ) : List (Use × Answer) × δ :=
  match uses with
  | [] => ([], d)
  | u :: uses => (play uses (act u d).2).map ((u, (act u d).1) :: ·) id

def session (uses : List Use) (d : δ) : List (Use × Answer) × Option (Array Byte) :=
  (play uses d).map id Device.close

end Play

def bytesRead (trace : List (Use × Answer)) : List Byte :=
  trace.filterMap fun e =>
    match e.2 with
    | .byte next => next
    | _ => none

def bytesPushed (trace : List (Use × Answer)) : List Byte :=
  trace.flatMap fun e =>
    match e.1 with
    | .push data => data
    | _ => []

def bytesTaken (trace : List (Use × Answer)) : List Byte :=
  trace.flatMap fun e =>
    match e with
    | (.write data, .taken true) => data
    | _ => []

structure Accounts (b : Buffered) (trace : List (Use × Answer)) (c : Buffered) : Prop where
  input : bytesRead trace ++ c.input.bytes = b.input.bytes ++ bytesPushed trace
  output : c.output.bytes.toList = b.output.bytes.toList ++ bytesTaken trace
  held : ∀ side, c.held side = (trace.map Prod.fst).foldl (Use.holding side) (b.held side)

structure ObeysLocks (b : Buffered) : Prop where
  read : b.read.1 = if b.held .input = none then b.input.bytes.head? else none
  write : ∀ data, (b.write data).1 = true ↔ b.held .output = none
  read_held : b.held .input ≠ none → b.read.2 = b
  write_held : ∀ data, b.held .output ≠ none → (b.write data).2 = b

section Accounts

variable {b c d : Buffered} {s t : List (Use × Answer)}

theorem bytesRead_append : bytesRead (s ++ t) = bytesRead s ++ bytesRead t := List.filterMap_append

theorem bytesPushed_append : bytesPushed (s ++ t) = bytesPushed s ++ bytesPushed t := List.flatMap_append

theorem bytesTaken_append : bytesTaken (s ++ t) = bytesTaken s ++ bytesTaken t := List.flatMap_append

theorem Accounts.append (hs : Accounts b s c) (ht : Accounts c t d) : Accounts b (s ++ t) d where
  input := by
    calc bytesRead (s ++ t) ++ d.input.bytes
      _ = bytesRead s ++ (bytesRead t ++ d.input.bytes) := by rw [bytesRead_append, List.append_assoc]
      _ = (bytesRead s ++ c.input.bytes) ++ bytesPushed t := by rw [ht.input, List.append_assoc]
      _ = b.input.bytes ++ bytesPushed (s ++ t) := by rw [hs.input, bytesPushed_append, List.append_assoc]
  output := by rw [ht.output, hs.output, bytesTaken_append, List.append_assoc]
  held side := by rw [ht.held, hs.held, List.map_append, List.foldl_append]

theorem obeysLocks (b : Buffered) : ObeysLocks b := by
  have hin : b.input.isFree = true ↔ b.held .input = none := Option.isNone_iff_eq_none
  have hout : b.output.isFree = true ↔ b.held .output = none := Option.isNone_iff_eq_none
  refine ⟨?_, fun data => ?_, fun h => ?_, fun data h => ?_⟩
  · unfold Buffered.read
    rw [Guarded.access_eq]
    by_cases h : b.held .input = none
    · rw [if_pos (hin.mpr h), if_pos h]
      cases b.input.bytes <;> rfl
    · rw [if_neg (mt hin.mp h), if_neg h]
  · rw [← hout, Buffered.write, Guarded.access_eq]
    cases b.output.isFree <;> simp
  · rw [Buffered.read, Guarded.access_eq, if_neg (mt hin.mp h)]
  · rw [Buffered.write, Guarded.access_eq, if_neg (mt hout.mp h)]

theorem accounts_still {e : Use × Answer} (hread : bytesRead [e] = []) (hpushed : bytesPushed [e] = [])
    (htaken : bytesTaken [e] = []) (hin : c.input.bytes = b.input.bytes) (hout : c.output.bytes = b.output.bytes)
    (hheld : ∀ side, c.held side = e.1.holding side (b.held side)) : Accounts b [e] c where
  input := by rw [hread, hpushed, hin, List.append_nil, List.nil_append]
  output := by rw [htaken, hout, List.append_nil]
  held := hheld

theorem accounts_read (b : Buffered) : Accounts b [(.read, .byte b.read.1)] b.read.2 := by
  unfold Buffered.read
  rw [Guarded.access_eq]
  cases b.input.isFree with
  | true =>
    cases h : b.input.bytes with
    | nil => exact accounts_still rfl rfl rfl rfl rfl fun side => by cases side <;> rfl
    | cons x rest =>
      refine ⟨?_, (List.append_nil _).symm, fun side => by cases side <;> rfl⟩
      rw [h]
      exact (List.append_nil _).symm
  | false => exact accounts_still rfl rfl rfl rfl rfl fun side => by cases side <;> rfl

theorem accounts_write (b : Buffered) (data : List Byte) :
    Accounts b [(.write data, .taken (b.write data).1)] (b.write data).2 := by
  unfold Buffered.write
  rw [Guarded.access_eq]
  cases b.output.isFree with
  | true =>
    refine ⟨(List.append_nil _).symm, ?_, fun side => by cases side <;> rfl⟩
    simp [bytesTaken]
  | false => exact accounts_still rfl rfl rfl rfl rfl fun side => by cases side <;> rfl

theorem accounts_act (u : Use) (b : Buffered) : Accounts b [(u, (act u b).1)] (act u b).2 := by
  cases u with
  | read => exact accounts_read b
  | write data => exact accounts_write b data
  | push data =>
    refine ⟨?_, (List.append_nil _).symm, fun side => by cases side <;> rfl⟩
    exact congrArg (b.input.bytes ++ ·) (List.append_nil data).symm
  | lock s hold => cases s <;> exact accounts_still rfl rfl rfl rfl rfl fun side => by cases side <;> rfl
  | unlock s others =>
    cases s <;> cases others <;> exact accounts_still rfl rfl rfl rfl rfl fun side => by cases side <;> rfl
  | poison s => cases s <;> exact accounts_still rfl rfl rfl rfl rfl fun side => by cases side <;> rfl

theorem accounts_play (uses : List Use) (b : Buffered) : Accounts b (play uses b).1 (play uses b).2 := by
  induction uses generalizing b with
  | nil => exact ⟨(List.append_nil _).symm, (List.append_nil _).symm, fun _ => rfl⟩
  | cons u uses ih => exact (accounts_act u b).append (ih (act u b).2)

end Accounts

section Poison

variable {b c : Buffered} {u : Use}

theorem act_unpoisoned (u : Use) (b : Buffered) :
    (act u b.unpoisoned).1 = (act u b).1 ∧ (act u b.unpoisoned).2.unpoisoned = (act u b).2.unpoisoned := by
  cases u with
  | read =>
    change Answer.byte b.unpoisoned.read.1 = .byte b.read.1 ∧ b.unpoisoned.read.2.unpoisoned = b.read.2.unpoisoned
    have haccess : b.unpoisoned.input.access = b.input.access := b.input.access_poisoned false
    unfold Buffered.read
    rw [haccess]
    split <;> exact ⟨rfl, rfl⟩
  | write data =>
    change Answer.taken (b.unpoisoned.write data).1 = .taken (b.write data).1 ∧
      (b.unpoisoned.write data).2.unpoisoned = (b.write data).2.unpoisoned
    have haccess : b.unpoisoned.output.access = b.output.access := b.output.access_poisoned false
    unfold Buffered.write
    rw [haccess]
    split <;> exact ⟨rfl, rfl⟩
  | push data => exact ⟨rfl, rfl⟩
  | lock s hold => cases s <;> exact ⟨rfl, rfl⟩
  | unlock s others => cases s <;> cases others <;> exact ⟨rfl, rfl⟩
  | poison s => cases s <;> exact ⟨rfl, rfl⟩

theorem act_congr (u : Use) (h : b.unpoisoned = c.unpoisoned) :
    (act u b).1 = (act u c).1 ∧ (act u b).2.unpoisoned = (act u c).2.unpoisoned := by
  rw [← (act_unpoisoned u b).1, ← (act_unpoisoned u b).2, h, (act_unpoisoned u c).1, (act_unpoisoned u c).2]
  exact ⟨rfl, rfl⟩

theorem unpoisoned_act (h : u.poisons = true) (b : Buffered) : (act u b).2.unpoisoned = b.unpoisoned := by
  cases u with
  | poison s => cases s <;> rfl
  | read | write | push | lock | unlock => cases h

theorem play_filter (uses : List Use) (h : b.unpoisoned = c.unpoisoned) :
    (play (uses.filter (!·.poisons)) b).1 = (play uses c).1.filter (!·.1.poisons) ∧
      (play (uses.filter (!·.poisons)) b).2.unpoisoned = (play uses c).2.unpoisoned := by
  induction uses generalizing b c with
  | nil => exact ⟨rfl, h⟩
  | cons u uses ih =>
    cases hu : u.poisons with
    | true =>
      rw [List.filter_cons_of_neg (by simp [hu])]
      obtain ⟨htrace, hlast⟩ := ih (h.trans (unpoisoned_act hu c).symm)
      refine ⟨htrace.trans ?_, hlast⟩
      exact (List.filter_cons_of_neg (by simp [hu])).symm
    | false =>
      rw [List.filter_cons_of_pos (by simp [hu])]
      obtain ⟨hanswer, hnext⟩ := act_congr u h
      obtain ⟨htrace, hlast⟩ := ih hnext
      refine ⟨?_, hlast⟩
      change (u, (act u b).1) :: (play (uses.filter (!·.poisons)) (act u b).2).1 = _
      rw [htrace, hanswer]
      exact (List.filter_cons_of_pos (by simp [hu])).symm

end Poison

section Layers

variable {δ : Type} [Device δ] {layer : Buffered → δ}

def boxed : Nat → Buffered → Console
  | 0, b => buffered b
  | n + 1, b => custom (boxed n b)

structure Wraps (layer : Buffered → δ) : Prop where
  read : ∀ b, Device.read (layer b) = b.read.map id layer
  write : ∀ data b, Device.write data (layer b) = (b.write data).map id layer
  share : ∀ f b, Device.share f (layer b) = layer (f b)
  close : ∀ b, Device.close (layer b) = some b.output.bytes

theorem wraps_buffered : Wraps Console.buffered where
  read b := by
    change Console.read (.buffered b) = _
    unfold Console.read Console.readable Buffered.readable Buffered.read
    cases h : b.input.access with
    | none => rfl
    | some bytes =>
      cases bytes with
      | nil => rfl
      | cons x rest => simp [Console.consume, Buffered.consume, h]
  write _ _ := rfl
  share _ _ := rfl
  close _ := rfl

theorem read_custom (c : Console) : (custom c).read = c.read.map id custom := by
  have h : (custom c).readable = c.readable := rfl
  unfold Console.read
  rw [h]
  cases c.readable <;> rfl

theorem wraps_boxed (n : Nat) : Wraps (boxed n) := by
  induction n with
  | zero => exact wraps_buffered
  | succ n ih =>
    refine ⟨fun b => ?_, fun data b => ?_, fun f b => congrArg custom (ih.share f b), ih.close⟩
    · exact (read_custom (boxed n b)).trans (congrArg (Prod.map id custom) (ih.read b))
    · exact congrArg (Prod.map id custom) (ih.write data b)

theorem Wraps.act (h : Wraps layer) (u : Use) (b : Buffered) :
    Console.act u (layer b) = (Console.act u b).map id layer := by
  cases u with
  | read => exact congrArg (Prod.map Answer.byte id) (h.read b)
  | write data => exact congrArg (Prod.map Answer.taken id) (h.write data b)
  | push | lock | unlock | poison => exact congrArg (Answer.done, ·) (h.share _ b)

theorem Wraps.play (h : Wraps layer) (uses : List Use) (b : Buffered) :
    Console.play uses (layer b) = (Console.play uses b).map id layer := by
  induction uses generalizing b with
  | nil => rfl
  | cons u uses ih =>
    rw [Console.play, h.act]
    change (Console.play uses (layer (Console.act u b).2)).map _ id = _
    rw [ih]
    rfl

theorem Wraps.session (h : Wraps layer) (uses : List Use) (b : Buffered) :
    Console.session uses (layer b) = Console.session uses b := by
  rw [Console.session, h.play]
  exact congrArg ((Console.play uses b).1, ·) (h.close _)

end Layers

/--
No byte of a buffered device is lost or doubled in the course of some uses, which have the same answers without
the poisonings, and behind any number of boxes.
-/
structure Conserves (b : Buffered) (uses : List Use) : Prop where
  accounts : Accounts b (play uses b).1 (play uses b).2
  locks : ObeysLocks (play uses b).2
  closed : (session uses b).2 = some (play uses b).2.output.bytes
  poisonings : session (uses.filter (!·.poisons)) b =
    ((session uses b).1.filter (!·.1.poisons), (session uses b).2)
  layers : ∀ n, session uses (boxed n b) = session uses b ∧
    (play uses (boxed n b)).2 = boxed n (play uses b).2

theorem buffered_conserves (b : Buffered) (uses : List Use) : Conserves b uses where
  accounts := accounts_play uses b
  locks := obeysLocks _
  closed := rfl
  poisonings := by
    obtain ⟨htrace, hlast⟩ := play_filter uses (b := b) (c := b) rfl
    have hout := congrArg (fun b : Buffered => some b.output.bytes) hlast
    exact Prod.ext htrace hout
  layers n := by
    refine ⟨(wraps_boxed n).session uses b, ?_⟩
    rw [(wraps_boxed n).play]
    rfl

end Console

end MipsMachine
