import SelfWiring.Value

/-! # Signatures

The declared parameters and results of a cell. `Signature.check` compares an argument list with the
parameters and names the first mismatch: the count is looked at before any kind.
-/

namespace SelfWiring

/-- Why an argument list does not fit a signature. -/
inductive Mismatch where
  | count (expected actual : Nat)
  | kind (position : Nat) (expected actual : Kind)
  deriving DecidableEq

def Mismatch.message : Mismatch → String
  | .count expected actual => s!"expected {expected} arguments, got {actual}"
  | .kind position expected actual =>
    s!"argument {position} should be {expected.name}, got {actual.name}"

structure Signature where
  inputs : List Kind
  outputs : List Kind
  fallible : Bool := false
  deriving DecidableEq, Inhabited

namespace Signature

/-- The first argument of the wrong kind, counted from `position`. -/
def misfit? : Nat → List Kind → List Value → Option Mismatch
  | position, k :: ks, v :: vs =>
    if k.takes v then misfit? (position + 1) ks vs else some (.kind position k v.kind)
  | _, _, _ => none

def check (s : Signature) (args : List Value) : Except Mismatch Unit :=
  if args.length = s.inputs.length then
    match misfit? 0 s.inputs args with
    | some m => .error m
    | none => .ok ()
  else .error (.count s.inputs.length args.length)

def accepts (s : Signature) (args : List Value) : Bool := (s.check args).isOk

def kindNames (ks : List Kind) : String := ", ".intercalate (ks.map Kind.name)

/-- A fallible signature lists `error` after its results. -/
def render (s : Signature) : String :=
  let failure := if s.fallible then (if s.outputs.isEmpty then "error" else ", error") else ""
  "(context, " ++ kindNames s.inputs ++ ") -> (" ++ kindNames s.outputs ++ failure ++ ")"

end Signature

end SelfWiring
