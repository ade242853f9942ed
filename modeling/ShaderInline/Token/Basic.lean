import ShaderInline.Text.Basic
import ShaderInline.Kind

/-! # Tokens and the faults found in them -/

namespace ShaderInline

inductive Fault where
  | unterminatedComment
  | unterminatedString
  | unexpected (c : Char)
  deriving DecidableEq, Repr

def Fault.message : Fault → Text
  | unterminatedComment => "Unterminated block comment".toList
  | unterminatedString => "Unterminated string literal".toList
  | unexpected c => "Unexpected character '".toList ++ [c] ++ "'".toList

/-- A piece of a text: its kind, its characters, where it starts and what is wrong with it. -/
structure Token where
  kind : Kind
  text : Text
  start : Nat
  fault : Option Fault
  deriving DecidableEq, Repr

def Token.stop (t : Token) : Nat := t.start + Text.size t.text

/-- A fault and the range of the token that has it. -/
structure FaultAt where
  fault : Fault
  start : Nat
  stop : Nat
  deriving DecidableEq, Repr

def Token.faultAt? (t : Token) : Option FaultAt := t.fault.map fun f => ⟨f, t.start, t.stop⟩

end ShaderInline
