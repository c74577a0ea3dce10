import TreeCode.Target.Arm64
import TreeCode.Target.I386
import TreeCode.Target.X64

/-!
The machines that code can be made for, by name.
-/

namespace TreeCode

/-- The known machines. -/
inductive Arch where
  | x64 | arm64 | i386
deriving DecidableEq

namespace Arch

/-- All known machines. -/
def all : List Arch := [x64, arm64, i386]

/-- The name of a machine. -/
def name : Arch → String
  | x64 => "x64"
  | arm64 => "arm64"
  | i386 => "i386"

/-- The machine called `text`. -/
def ofName (text : String) : Except Error Arch :=
  match all.find? fun arch => arch.name == text with
  | some arch => .ok arch
  | none => .error (.unknownArchitecture text)

/-- The tables of a machine. -/
def target : Arch → Target
  | x64 => { convention := X64.convention, isa := X64.isa }
  | arm64 => { convention := Arm64.convention, isa := Arm64.isa }
  | i386 => { convention := I386.convention, isa := I386.isa }

end Arch

end TreeCode
