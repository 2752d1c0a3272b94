/-
# Settings

The settings of a catalog come from the environment of the program, which is an argument here: the
value of the one variable that is read, if it is set.
-/
import BinarySchema.Number.Numeral
import BinarySchema.Text.Quoted

namespace BinarySchema

/-- The settings of a catalog. -/
structure Settings where
  /-- The size of the workspace, in bytes. -/
  capacity : Nat := 8192
  deriving DecidableEq, Repr

/-- A setting that cannot be read. -/
structure SettingError where
  /-- What the variable holds. -/
  given : String
  /-- What is wrong with it. -/
  reason : NumeralError
  deriving DecidableEq, Repr

namespace Settings

/-- The name of the variable that holds the size of the workspace. -/
def capacityVariable : String := "TESSERA_SCRATCH_CAPACITY"

/-- The settings, given the value of the variable. -/
def ofVariable (given : Option String) : Except SettingError Settings :=
  match given with
  | none => .ok {}
  | some s =>
    match Numeral.unsigned s.toList with
    | .ok n => .ok { capacity := n.toNat }
    | .error reason => .error ⟨s, reason⟩

end Settings

/-- The error, in words. -/
def SettingError.message (e : SettingError) : String :=
  Settings.capacityVariable ++ "=" ++ Text.quoted e.given ++ ": " ++ e.reason.message

end BinarySchema
