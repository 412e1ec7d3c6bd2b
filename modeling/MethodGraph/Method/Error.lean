import MethodGraph.Graph.Verify
/-!
  Errors of building.

  An error is reported to the caller of the step that failed; what was built before stays.
-/

namespace MethodGraph

/-- Why a step of building failed. -/
inductive BuildError where
  | unresolvedFunction (name : String)
  | unsupported (feature : String)
  | undefinedLocal (name : String)
  | unknownType (name : String)
  | unknownField (aggregate field : String)
  /-- Whoever fills in the method gave up. -/
  | bodyFailed (method : String)
  | malformed (flaw : Flaw)
  /-- The listing could not be written. -/
  | listingNotWritten
  deriving DecidableEq, Repr, Inhabited

/-- The words in which an error is reported. -/
def BuildError.message : BuildError → String
  | unresolvedFunction name => "unresolved function `" ++ name ++ "`"
  | unsupported feature => "target does not support " ++ feature
  | undefinedLocal name => "local `" ++ name ++ "` is not defined"
  | unknownType name => "type `" ++ name ++ "` is not defined"
  | unknownField aggregate field =>
    "type `" ++ aggregate ++ "` has no field `" ++ field ++ "`"
  | bodyFailed method => "building IL for `" ++ method ++ "` failed"
  | malformed flaw => "malformed IL graph: " ++ flaw.message
  | listingNotWritten => "failed to write IL listing"

end MethodGraph
