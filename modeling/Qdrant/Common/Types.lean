-- SUMMARY: The numbers that identify operations, segments and points.

/-!
# Identifiers
-/

namespace Qdrant

/-- The number of an operation, and with it the version of what it changed. -/
abbrev SeqNumber := Nat

abbrev SegmentId := Nat

/-- External ids of points. Numbers come before UUIDs; only equality and order matter. -/
abbrev PointId := Nat

end Qdrant
