import Classwright.Floating
import Classwright.Text

/-!
Values that are known before a program runs.
-/

namespace Classwright

/-- A constant value. Whole numbers of every width are held as long ones, and numbers of both
precisions as double ones; the type beside a value says how to read it. -/
inductive Value where
  | null
  | bool (b : Bool)
  | int (i : Int64)
  | float (x : Double)
  | str (s : Text)
  deriving DecidableEq, Repr

end Classwright
