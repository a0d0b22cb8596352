/-! How much is logged. -/
namespace Ls8

inductive Level where
  | error | warn | info | debug | trace
  deriving DecidableEq

namespace Level

def all : List Level := [error, warn, info, debug, trace]

def rank : Level → Nat
  | error => 1
  | warn => 2
  | info => 3
  | debug => 4
  | trace => 5

def name : Level → List Char
  | error => "ERROR".toList
  | warn => "WARN".toList
  | info => "INFO".toList
  | debug => "DEBUG".toList
  | trace => "TRACE".toList

end Level

/-- The least urgent level that is still logged; `none` logs nothing. -/
structure Verbosity where
  level : Option Level
  deriving DecidableEq

namespace Verbosity

def ofFlags (verbose : Nat) (quiet : Bool) : Verbosity :=
  if quiet then ⟨none⟩
  else match verbose with
    | 0 => ⟨some .warn⟩
    | 1 => ⟨some .info⟩
    | 2 => ⟨some .debug⟩
    | _ => ⟨some .trace⟩

def name (v : Verbosity) : List Char :=
  match v.level with
  | none => "OFF".toList
  | some l => l.name

def accepts (v : Verbosity) (l : Level) : Bool := v.level.any fun most => l.rank ≤ most.rank

end Verbosity
end Ls8
