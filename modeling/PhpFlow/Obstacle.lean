import PhpFlow.Fault
import PhpFlow.Text.Quoted

/-!
# Obstacles

What stops the reading of files and settings although no rule about them is broken: a path that the
system does not take, or a setting that cannot be worked with. No command answers for an obstacle.
-/
namespace PhpFlow

inductive Obstacle where
  /-- A null character in a path. -/
  | nullInPath
  | noHome
  | pathTooLong (path : String)
  /-- A list or a table among the items of a set. -/
  | noItem (kind : String)
  /-- Two items of a set that have no order. -/
  | noOrder (left right : String)
  | dayAndMoment
  | localAndOffset
  /-- Something that is no table, in which a table is looked up. -/
  | noEntries (kind : String)
  /-- A decimal integer with too many digits to be read. -/
  | tooManyDigits (count : Nat)
  /-- An integer with too many digits to be written. -/
  | tooLongToWrite
  deriving DecidableEq, Repr

def Obstacle.message : Obstacle → String
  | nullInPath => "embedded null byte"
  | noHome => "Could not determine home directory."
  | pathTooLong path => "[Errno 36] File name too long: " ++ Text.quote path
  | noItem kind => "unhashable type: '" ++ kind ++ "'"
  | noOrder left right =>
    "'<' not supported between instances of '" ++ left ++ "' and '" ++ right ++ "'"
  | dayAndMoment => "can't compare datetime.datetime to datetime.date"
  | localAndOffset => "can't compare offset-naive and offset-aware datetimes"
  | noEntries kind => "'" ++ kind ++ "' object has no attribute 'get'"
  | tooManyDigits n => (Fault.tooManyDigits n).message
  | tooLongToWrite => Fault.tooLongToWrite.message

end PhpFlow
