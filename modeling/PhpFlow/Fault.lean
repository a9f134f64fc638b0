/-!
# Faults

What can go wrong while a program is analysed. Internal faults are about the analyser's own scopes and
are turned into issues where they arise; the others end the analysis.
-/
namespace PhpFlow

inductive Fault where
  | deadScope (handle : Int)
  | emptyScopeStack
  | corruptScopeStack (popped expected : Int)
  | noScopeToPop
  | integerTooLarge
  | quotientTooLarge
  /-- A decimal integer with too many digits to be read. -/
  | tooManyDigits (count : Nat)
  /-- An integer with too many digits to be written. -/
  | tooLongToWrite
  deriving DecidableEq, Repr

namespace Fault

def isInternal : Fault → Bool
  | deadScope _ | emptyScopeStack | corruptScopeStack _ _ => true
  | noScopeToPop | integerTooLarge | quotientTooLarge | tooManyDigits _ | tooLongToWrite => false

def message : Fault → String
  | deadScope h => s!"scope {h} is not live"
  | emptyScopeStack => "empty scope stack"
  | corruptScopeStack popped expected => s!"scope stack corrupted: {popped} != {expected}"
  | noScopeToPop => "pop from empty list"
  | integerTooLarge => "int too large to convert to float"
  | quotientTooLarge => "integer division result too large for a float"
  | tooManyDigits n =>
    s!"Exceeds the limit (4300 digits) for integer string conversion: value has {n} digits; " ++
      "use sys.set_int_max_str_digits() to increase the limit"
  | tooLongToWrite =>
    "Exceeds the limit (4300 digits) for integer string conversion; " ++
      "use sys.set_int_max_str_digits() to increase the limit"

end Fault

end PhpFlow
