import Mathlib.Data.String.Basic
import MipsMachine.Proofs.Token.Numeral
import MipsMachine.Proofs.Token.Quotation

namespace MipsMachine.Token

def Writable : TokenKind → Prop
  | .int v => -0x80000000 ≤ v ∧ v ≤ 0xFFFFFFFF
  | .reg name => name ≠ "" ∧ name.toList.all Char.isAlphanum
  | .ident name => IsIdentifier name.toList
  | .str _ | .comma | .lparen | .rparen | .colon => True
  | .error _ | .eol => False

instance (kind : TokenKind) : Decidable (Writable kind) := by
  cases kind <;> unfold Writable <;> infer_instance

def render : TokenKind → String
  | .int v => toString v
  | .reg name => "$" ++ name
  | .ident name => name
  | .str text => quoted text
  | .comma => ","
  | .lparen => "("
  | .rparen => ")"
  | .colon => ":"
  | .error _ | .eol => ""

theorem Reads.render {kind : TokenKind} (h : Writable kind) : Reads (render kind).toList [kind] := by
  cases kind with
  | int v => exact Reads.int ⟨h.1, by have := h.2; omega⟩
  | reg name => simpa [Token.render] using Reads.reg (by simpa using h.1) h.2
  | ident name => exact Reads.ident h
  | str text => exact Reads.quoted text
  | comma => exact Reads.nil.comma
  | lparen => exact Reads.nil.lparen
  | rparen => exact Reads.nil.rparen
  | colon => exact Reads.nil.colon
  | error cause => exact h.elim
  | eol => exact h.elim

theorem Reads.intercalate {kinds : List TokenKind} (h : ∀ kind ∈ kinds, Writable kind) :
    Reads (" ".intercalate (kinds.map Token.render)).toList kinds := by
  induction kinds with
  | nil => exact Reads.nil
  | cons kind kinds ih =>
    obtain ⟨hkind, hkinds⟩ := List.forall_mem_cons.mp h
    cases kinds with
    | nil => simpa using Reads.render hkind
    | cons next kinds =>
      have hrest := (ih hkinds).blank
      have := (Reads.render hkind).append hrest (breaks_cons (by decide) _)
      simpa using this

theorem ofLine_rendered {kinds : List TokenKind} (h : ∀ kind ∈ kinds, Writable kind) :
    (ofLine (" ".intercalate (kinds.map render))).map Token.kind = kinds ++ [.eol] :=
  (Reads.intercalate h).map_kind_ofLine

theorem ofLine_rendered_mixed :
    (∀ kind ∈ [.ident "a.b", .colon, .int (-0x80000000), .reg "31", .str "é#\"\\\n'", .int 0xFFFFFFFF],
      Writable kind) ∧
      (ofLine "a.b : -2147483648 $31 \"é#\\\"\\\\\\n'\" 4294967295").map Token.kind =
        [.ident "a.b", .colon, .int (-0x80000000), .reg "31", .str "é#\"\\\n'", .int 0xFFFFFFFF, .eol] := by
  have h : ∀ kind ∈ [.ident "a.b", .colon, .int (-0x80000000), .reg "31", .str "é#\"\\\n'", .int 0xFFFFFFFF],
      Writable kind := by decide
  exact ⟨h, ofLine_rendered h⟩

end MipsMachine.Token
