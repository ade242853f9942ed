import ShaderInline.Text.Basic

/-! # Failures

A failed import is no failure: it is reported beside the output. A failure ends
the work on one shader, or on all of them.
-/

namespace ShaderInline

inductive Failure where
  /-- The configuration cannot be read or is not valid. -/
  | config (message : Text)
  /-- A file cannot be read or written. -/
  | io (path cause : Text)
  /-- Two edits touch the same text. -/
  | editConflict (message : Text)
  /-- An edit addresses an offset that is not between two characters of the text. -/
  | offsetOutOfRange (offset len : Nat)
  /-- There is no version line to put the defines after. -/
  | missingVersion (source : Text)
  | cancelled (resource : Text)
  /-- The store could not be read. -/
  | preprocess (resource diagnostics : Text)
  | internal (message : Text)
  deriving DecidableEq, Repr

namespace Failure

inductive Area where
  | config
  | io
  | edit
  | defines
  | cancelled
  | preprocess
  | internal
  deriving DecidableEq, Repr

def area : Failure → Area
  | config _ => .config
  | io _ _ => .io
  | editConflict _ => .edit
  | offsetOutOfRange _ _ => .edit
  | missingVersion _ => .defines
  | cancelled _ => .cancelled
  | preprocess _ _ => .preprocess
  | internal _ => .internal

/-- Whether other shaders can still be built. -/
def isRecoverable (f : Failure) : Bool :=
  f.area == .io || f.area == .preprocess || f.area == .defines

def message : Failure → Text
  | config m => "Configuration error: ".toList ++ m
  | io path cause => "IO error for path '".toList ++ path ++ "': ".toList ++ cause
  | editConflict m => "Conflicting edits: ".toList ++ m
  | offsetOutOfRange offset len =>
    "Offset ".toList ++ Text.decimal offset ++ " is outside the text (length ".toList ++
      Text.decimal len ++ ")".toList
  | missingVersion source =>
    "Cannot inject defines into '".toList ++ source ++ "': no leading version directive".toList
  | cancelled resource => "Preprocessing of '".toList ++ resource ++ "' was cancelled".toList
  | preprocess resource diagnostics =>
    "Preprocessing failed for '".toList ++ resource ++ "': ".toList ++ diagnostics
  | internal m => "Internal error: ".toList ++ m

/-- Turn a failure that concerns one shader only into the absence of its result. -/
def recover {α : Type} : Except Failure α → Except Failure (Option α)
  | .ok a => .ok (some a)
  | .error f => if f.isRecoverable then .ok none else .error f

end Failure
end ShaderInline
