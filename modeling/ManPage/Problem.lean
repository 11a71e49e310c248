import ManPage.Text.Numeral

/-! The problems of a page that do not stop its conversion, and where they stand. -/

namespace ManPage

inductive Cause
  | unknownRequest (name : Text)
  | unmatchedMarginDecrease
  deriving DecidableEq, Repr

def Cause.message : Cause → Text
  | unknownRequest name => "unknown request `.".toList ++ name ++ "`".toList
  | unmatchedMarginDecrease => "`.RE` without a matching `.RS`".toList

/-- A problem at a line of a page. -/
structure Problem where
  source : Text
  line : Nat
  cause : Cause
  deriving DecidableEq, Repr

namespace Problem

def message (problem : Problem) : Text :=
  problem.cause.message

def display (problem : Problem) : Text :=
  problem.source ++ ':' :: Text.ofNat problem.line ++ ": ".toList ++ problem.message

end Problem

end ManPage
