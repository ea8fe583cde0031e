import MipsMachine.Proofs.Checked.Arithmetic
import MipsMachine.Proofs.Token.Tiling

/-!
Reading the tokens of a line by counting bytes, where a cut inside a character or past the end breaks off.
Where the text of a name, of a numeral or of blank space ends is found character by character, and so is not
counted.
-/

namespace MipsMachine.Checked

open Token (width kindOf)

section Cut

variable {α : Type}

def cut : Nat → List Char → Option (List Char × List Char)
  | 0, cs => some ([], cs)
  | _ + 1, [] => none
  | n + 1, c :: cs => do
    let (front, rest) ← cut (← sub (n + 1) c.utf8Size) cs
    return (c :: front, rest)

def bump (n : Nat) (cs : List Char) (a : α) : Option (α × List Char) := do return (a, (← cut n cs).2)

def taken (p : α × Nat) (cs : List Char) : α × List Char := (p.1, cs.drop p.2)

def find (d : Char) : List Char → Option Nat
  | [] => none
  | c :: cs => if c = d then some 0 else (find d cs).map (c.utf8Size + ·)

def firstLine (cs : List Char) : Option (List Char) :=
  match find '\n' cs with
  | some n => do return (← cut n cs).1
  | none => some cs

theorem cut_cons (n : Nat) (c : Char) (cs : List Char) :
    cut (n + c.utf8Size) (c :: cs) = (cut n cs).map fun p => (c :: p.1, p.2) := by
  obtain ⟨k, hk⟩ := Nat.exists_eq_add_one.mpr (Nat.add_pos_right n c.utf8Size_pos)
  rw [hk, cut, sub_eq (by omega), some_bind, ← hk, Nat.add_sub_cancel]
  cases cut n cs <;> rfl

theorem cut_width (a b : List Char) : cut (width a) (a ++ b) = some (a, b) := by
  induction a with
  | nil => rw [width, cut]; rfl
  | cons c a ih => rw [width, Nat.add_comm, List.cons_append, cut_cons, ih]; rfl

example : cut 1 ['é'] = none := rfl

theorem cut_take (n : Nat) (cs : List Char) : cut (width (cs.take n)) cs = some (cs.take n, cs.drop n) := by
  simpa using cut_width (cs.take n) (cs.drop n)

theorem bump_all (cs : List Char) (x : α) : bump (width cs) cs x = some (x, []) := by
  have h := cut_width cs []
  rw [List.append_nil] at h
  rw [bump, h]
  rfl

theorem bump_past {cs a b : List Char} {d : Char} (h : cs = a ++ d :: b) (hd : d.utf8Size = 1) (x : α) :
    bump (width a + 1) cs x = some (x, b) := by
  have hcut := cut_width (a ++ [d]) b
  rw [Token.width_append, width, width, hd, List.append_assoc] at hcut
  rw [bump, h]
  exact (congrArg (· >>= _) hcut).trans rfl

theorem find_eq (d : Char) (cs : List Char) :
    find d cs = (cs.findIdx? (· = d)).map fun n => width (cs.take n) := by
  induction cs with
  | nil => rfl
  | cons c cs ih =>
    rw [find, List.findIdx?_cons, ih]
    by_cases h : c = d
    · simp [h, width]
    · cases cs.findIdx? (· = d) <;> simp [h, width]

theorem eq_append_of_findIdx? {d : Char} {cs : List Char} {n : Nat} (h : cs.findIdx? (· = d) = some n) :
    cs = cs.take n ++ d :: cs.drop (n + 1) := by
  obtain ⟨hn, hd, -⟩ := List.findIdx?_eq_some_iff_getElem.mp h
  rw [← of_decide_eq_true hd, ← List.drop_eq_getElem_cons hn, List.take_append_drop]

theorem firstLine_eq (cs : List Char) : firstLine cs = some (cs.takeWhile (· ≠ '\n')) := by
  have ht : cs.takeWhile (· ≠ '\n') = cs.take (cs.findIdx (· = '\n')) := by
    rw [List.takeWhile_eq_take_findIdx_not]
    simp
  unfold firstLine
  rw [find_eq, ht]
  cases h : cs.findIdx? (· = '\n') with
  | none => rw [List.findIdx?_eq_none_iff_findIdx_eq.mp h, List.take_length]; rfl
  | some n =>
    obtain ⟨-, rfl⟩ := List.findIdx?_eq_some_iff_findIdx_eq.mp h
    rw [Option.map_some]
    dsimp only
    rw [cut_take]
    rfl

end Cut

section Literals

def closeChar (value : Char) (r : List Char) (start : Nat) :
    List Char → Option (Except LexError Int × List Char)
  | '\'' :: _ => bump (start + 1) r (.ok value.toNat)
  | [] => bump (width r) r (.error .unclosedChar)
  | _ :: _ =>
    match find '\'' r with
    | some n => bump (n + 1) r (.error .invalidChar)
    | none => bump (width r) r (.error .unclosedChar)

def character (r : List Char) : Option (Except LexError Int × List Char) :=
  match r with
  | [] => some (.error .unclosedChar, [])
  | ['\\'] => bump (width r) r (.error .unclosedChar)
  | '\\' :: c :: rest => closeChar ((Quoted.escape? c).getD c) r (1 + c.utf8Size) rest
  | '\'' :: _ => bump 1 r (.error .invalidChar)
  | c :: rest => closeChar c r c.utf8Size rest

def closing (escaped : Bool) (start : Nat) : List Char → Option Nat
  | [] => none
  | c :: r =>
    if escaped then closing false (start + c.utf8Size) r
    else if c = '\\' then closing true (start + c.utf8Size) r
    else if c = '"' then some start
    else closing false (start + c.utf8Size) r

def string (r : List Char) : Option (Except LexError String × List Char) :=
  match closing false 0 r with
  | none => bump (width r) r (.error .unclosedString)
  | some n => do
    let inside := (← cut n r).1
    bump (n + 1) r (.ok (String.ofList (Quoted.unescape inside)))

def magnitude (cs : List Char) : Option (Except LexError Nat) :=
  match cs with
  | '0' :: c :: _ =>
    if c = 'x' ∨ c = 'X' then some (Numeral.magnitude cs)
    else do return (← cut 1 cs).2.foldlM (Numeral.push 8 .invalidOctal) 0
  | _ => some (Numeral.magnitude cs)

def signed (negative : Bool) (digits : List Char) : Attempt LexError Int := do
  let n ← ExceptT.mk (magnitude digits)
  if n < 0x8000000000000000 then liftM (if negative then int64 (-n) else some (n : Int)) else throw .doesNotFit

def splitSign : List Char → Bool × List Char
  | '-' :: digits => (true, digits)
  | digits => (false, digits)

def value (cs : List Char) : Attempt LexError Int := do
  let v ← signed (splitSign cs).1 (splitSign cs).2
  if -0x80000000 ≤ v ∧ v < 0x100000000 then return v else throw .doesNotFit

theorem closeChar_of_ne {c : Char} (hc : c ≠ '\'') (value : Char) (r rest : List Char) :
    Quoted.closeChar value r (c :: rest) =
      match r.findIdx? (· = '\'') with
      | some n => (.error .invalidChar, n + 1)
      | none => (.error .unclosedChar, r.length) := by
  unfold Quoted.closeChar
  split
  · rename_i heq
    cases heq
    exact (hc rfl).elim
  · rename_i heq
    cases heq
  · rfl

theorem closeChar_eq (value : Char) (front rest : List Char) :
    closeChar value (front ++ rest) (width front) rest =
      some (taken (Quoted.closeChar value (front ++ rest) rest) (front ++ rest)) := by
  unfold closeChar
  split
  · rename_i after
    have hlen : (front ++ '\'' :: after).length - after.length = front.length + 1 := by
      simp only [List.length_append, List.length_cons]
      omega
    rw [bump_past rfl rfl, Quoted.closeChar, taken, hlen, List.drop_append]
    simp
  · rw [bump_all]
    simp [taken, Quoted.closeChar]
  · rename_i c rest hc
    rw [find_eq, closeChar_of_ne hc]
    cases h : (front ++ c :: rest).findIdx? (· = '\'') with
    | none =>
      rw [Option.map_none]
      dsimp only
      rw [bump_all, taken, List.drop_length]
    | some n =>
      rw [Option.map_some]
      dsimp only
      rw [bump_past (eq_append_of_findIdx? h) rfl]
      rfl

theorem character_eq (r : List Char) : character r = some (taken (Quoted.character r) r) := by
  unfold character
  split
  · rfl
  · rw [bump_all]
    rfl
  · rename_i c rest
    exact closeChar_eq _ ['\\', c] rest
  · exact bump_past (List.nil_append _).symm rfl _
  · rename_i c rest hend hesc hquote
    have hr : Quoted.character (c :: rest) = Quoted.closeChar c (c :: rest) rest := by
      rw [Quoted.character] <;> assumption
    rw [hr]
    exact closeChar_eq c [c] rest

theorem eq_append_of_closing? {escaped : Bool} {r : List Char} {n : Nat}
    (h : Quoted.closing? escaped r = some n) :
    r = r.take n ++ '"' :: r.drop (n + 1) := by
  induction r generalizing escaped n with
  | nil => cases h
  | cons c r ih =>
    have hmore {b : Bool} (hm : (Quoted.closing? b r).map (· + 1) = some n) :
        c :: r = (c :: r).take n ++ '"' :: (c :: r).drop (n + 1) := by
      obtain ⟨k, hk, rfl⟩ := Option.map_eq_some_iff.mp hm
      simpa using ih hk
    unfold Quoted.closing? at h
    split at h
    · exact hmore h
    split at h
    · exact hmore h
    split at h
    · rename_i hq
      cases h
      rw [hq]
      rfl
    · exact hmore h

theorem closing_eq (escaped : Bool) (start : Nat) (r : List Char) :
    closing escaped start r = (Quoted.closing? escaped r).map fun n => start + width (r.take n) := by
  induction r generalizing escaped start with
  | nil => rfl
  | cons c r ih =>
    unfold closing Quoted.closing?
    simp only [ih]
    have hmore (x : Option Nat) : x.map (fun n => start + c.utf8Size + width (r.take n)) =
        (x.map (· + 1)).map fun n => start + width ((c :: r).take n) := by
      cases x with
      | none => rfl
      | some n => simp [width, Nat.add_assoc]
    split_ifs
    · exact hmore _
    · exact hmore _
    · rfl
    · exact hmore _

theorem string_eq (r : List Char) : string r = some (taken (Quoted.string r) r) := by
  unfold string Quoted.string
  rw [closing_eq]
  cases h : Quoted.closing? false r with
  | none =>
    rw [Option.map_none]
    dsimp only
    rw [bump_all, taken, List.drop_length]
  | some n =>
    simp only [Option.map_some, Nat.zero_add]
    rw [cut_take, some_bind, bump_past (eq_append_of_closing? h) rfl]
    rfl

theorem magnitude_eq (cs : List Char) : magnitude cs = some (Numeral.magnitude cs) := by
  unfold magnitude
  split
  · rename_i c rest
    split
    · rfl
    · rename_i hc
      have hcut : cut 1 ('0' :: c :: rest) = some (['0'], c :: rest) := cut_width ['0'] (c :: rest)
      rw [hcut, some_bind]
      unfold Numeral.magnitude
      split <;> simp_all
  · rfl

theorem value_eq (cs : List Char) : value cs = total (Numeral.value cs) := by
  have hv : Numeral.value cs = Numeral.magnitude (splitSign cs).2 >>= fun n =>
      let v : Int := if (splitSign cs).1 then -n else n
      if -0x80000000 ≤ v ∧ v < 0x100000000 then .ok v else .error .doesNotFit := by
    unfold Numeral.value
    split
    · rename_i digits
      change _ = Numeral.magnitude digits >>= _
      cases Numeral.magnitude digits <;> rfl
    · rename_i hneg
      have hs : splitSign cs = (false, cs) := by
        unfold splitSign
        split
        · exact (hneg _ rfl).elim
        · rfl
      rw [hs]
      cases Numeral.magnitude cs <;> rfl
  unfold value signed
  rw [magnitude_eq, hv]
  generalize (splitSign cs).1 = negative
  cases Numeral.magnitude (splitSign cs).2 with
  | error e => rfl
  | ok n =>
    by_cases hn : n < 0x8000000000000000
    · have hi : (if negative then int64 (-n) else some (n : Int)) =
          some (if negative then (-n : Int) else n) := by
        cases negative with
        | false => rfl
        | true => exact int64_eq (by omega) (by omega)
      change (if n < _ then liftM _ else _) >>= _ = total (if _ then _ else _)
      rw [if_pos hn, lift_eq hi, ok_bind]
      exact (apply_ite total _ _ _).symm
    · have hv : ¬ (-0x80000000 ≤ (if negative then (-n : Int) else n) ∧
          (if negative then (-n : Int) else n) < 0x100000000) := by
        split <;> omega
      change (if n < _ then liftM _ else _) >>= _ = total (if _ then _ else _)
      rw [if_neg hn, if_neg hv]
      rfl

end Literals

section Line

def numeral (c : Char) (r : List Char) (n : Nat) : Option (TokenKind × List Char) := do
  return (kindOf .int (← (value (c :: r.take n)).run), r.drop n)

def register (c : Char) (r : List Char) (n : Nat) : Option (TokenKind × List Char) := do
  return (.reg (String.ofList (← cut 1 (c :: r.take n)).2), r.drop n)

def scan (c : Char) (r : List Char) : Option (TokenKind × List Char) :=
  if Character.isDecimalDigit c then numeral c r (r.takeWhile Character.isWordCharacter).length
  else if c = '-' ∧ r.head?.any Character.isDecimalDigit then
    numeral c r ((r.tail.takeWhile Character.isWordCharacter).length + 1)
  else if c = '\'' then do
    let (value, rest) ← character r
    return (kindOf .int value, rest)
  else if c = '"' then do
    let (text, rest) ← string r
    return (kindOf .str text, rest)
  else if c = '$' ∧ r.head?.any Char.isAlphanum then register c r (r.takeWhile Char.isAlphanum).length
  else some (taken (Token.scan c r) r)

theorem numeral_eq (c : Char) (r : List Char) (n : Nat) :
    numeral c r n = some (taken (kindOf .int (Numeral.value (c :: r.take n)), n) r) := by
  rw [numeral, value_eq]
  rfl

theorem register_eq (r : List Char) (n : Nat) :
    register '$' r n = some (taken (.reg (String.ofList (r.take n)), n) r) := by
  have hcut : cut 1 ('$' :: r.take n) = some (['$'], r.take n) := cut_width ['$'] (r.take n)
  rw [register, hcut]
  rfl

theorem scan_eq (c : Char) (r : List Char) : scan c r = some (taken (Token.scan c r) r) := by
  unfold scan
  by_cases hdigit : Character.isDecimalDigit c
  · rw [if_pos hdigit, Token.scan, if_pos hdigit]
    exact numeral_eq c r _
  rw [if_neg hdigit]
  by_cases hsign : c = '-' ∧ r.head?.any Character.isDecimalDigit
  · rw [if_pos hsign, Token.scan, if_neg hdigit, if_pos hsign]
    exact numeral_eq c r _
  rw [if_neg hsign]
  by_cases hchar : c = '\''
  · rw [if_pos hchar, Token.scan, if_neg hdigit, if_neg hsign, if_pos hchar, character_eq]
    rfl
  rw [if_neg hchar]
  by_cases hstring : c = '"'
  · rw [if_pos hstring, Token.scan, if_neg hdigit, if_neg hsign, if_neg hchar, if_pos hstring, string_eq]
    rfl
  rw [if_neg hstring]
  by_cases hreg : c = '$' ∧ r.head?.any Char.isAlphanum
  · rw [if_pos hreg, Token.scan, if_neg hdigit, if_neg hsign, if_neg hchar, if_neg hstring, if_pos hreg, hreg.1]
    exact register_eq r _
  · rw [if_neg hreg]

def ofChars (start : Nat) (cs : List Char) : Option (List Token) :=
  match cs with
  | [] => some [⟨.eol, ⟨start, start⟩⟩]
  | c :: r =>
    if Token.isBlank c then ofChars (start + c.utf8Size) r
    else if c = '#' then some [⟨.eol, ⟨start + width cs, start + width cs⟩⟩]
    else
      match _h : scan c r with
      | none => none
      | some (kind, rest) => do
        let stop := start + (← sub (width (c :: r)) (width rest))
        return ⟨kind, ⟨start, stop⟩⟩ :: (← ofChars stop rest)
termination_by cs.length
decreasing_by
  · simp
  · rw [scan_eq, taken] at _h
    cases _h
    rw [List.length_drop, List.length_cons]
    omega

theorem ofChars_eq (start : Nat) (cs : List Char) : ofChars start cs = some (Token.ofChars start cs) := by
  induction start, cs using Token.ofChars.induct with
  | case1 start => rw [ofChars, Token.ofChars]
  | case2 start c r hb ih => rw [ofChars, if_pos hb, ih, Token.ofChars_blank _ _ hb]
  | case3 start r => rw [ofChars, if_neg (by decide), if_pos rfl, Token.ofChars_comment]
  | case4 start c r hb hc kind n hscan stop ih =>
    -- the line is as wide as the token and what is left of it, so the difference is never below zero
    have hw : width (c :: r) = width (c :: r.take n) + width (r.drop n) := by
      rw [← Token.width_append, List.cons_append, List.take_append_drop]
    have hstop : sub (width (c :: r)) (width (r.drop n)) = some (width (c :: r.take n)) := by
      rw [hw, sub_eq (Nat.le_add_left _ _), Nat.add_sub_cancel]
    rw [ofChars, if_neg hb, if_neg hc, Token.ofChars_scan _ _ hb hc, hscan]
    split
    · rename_i hs
      rw [scan_eq] at hs
      cases hs
    · rename_i hs
      rw [scan_eq, hscan] at hs
      cases hs
      rw [hstop, some_bind]
      exact (congrArg (· >>= _) ih).trans rfl

def ofLine (src : String) : Option (List Token) := do ofChars 0 (← firstLine src.toList)

theorem ofLine_eq (src : String) : ofLine src = some (Token.ofLine src) := by
  rw [ofLine, firstLine_eq, some_bind, ofChars_eq]
  rfl

end Line

end MipsMachine.Checked
