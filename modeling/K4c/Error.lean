import Mathlib.Tactic.Basic

/-!
# Status codes

The result codes every fallible function of the library returns.
-/

namespace K4c

/-- `k4c_status`. -/
inductive Status where
  | ok
  | invalidArgument
  | noMemory
  | overflow
  | outOfRange
  | notFound
  | eof
  | io
  | invalidData
  | unsupported
  deriving DecidableEq, Repr

namespace Status

/-- A call that needs memory fails: there is none, or what it needs is too large. -/
def Fails (tooLarge : Prop) (st : Status) : Prop := st = .noMemory ∨ st = .overflow ∧ tooLarge

variable {st : Status} {tooLarge tooLarge' : Prop}

theorem Fails.mono (h : st.Fails tooLarge) (himp : tooLarge → tooLarge') : st.Fails tooLarge' :=
  h.imp_right (And.imp_right himp)

end Status

end K4c
