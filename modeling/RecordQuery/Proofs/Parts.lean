import RecordQuery.Query.Basic

/-!
What a query is made of: its parts, down to literals and paths, and the paths among them.
-/

namespace RecordQuery.Query

/-- A query and all that it is made of. -/
def parts : Query → List Query
  | .literal v => [.literal v]
  | .not operand => .not operand :: operand.parts
  | .binary op left right => .binary op left right :: (left.parts ++ right.parts)
  | .resolve path => [.resolve path]

/-- The paths along which a query looks into a record. -/
def paths : Query → List (List Step)
  | .literal _ => []
  | .not operand => operand.paths
  | .binary _ left right => left.paths ++ right.paths
  | .resolve path => [path]

variable {q s t : Query}

theorem parts_trans (hs : s ∈ q.parts) (ht : t ∈ s.parts) : t ∈ q.parts := by
  induction q with
  | literal v | resolve path =>
    cases List.mem_singleton.mp hs
    exact ht
  | not operand ih =>
    rcases List.mem_cons.mp hs with rfl | hs
    · exact ht
    · exact List.mem_cons_of_mem _ (ih hs)
  | binary op left right ihl ihr =>
    rcases List.mem_cons.mp hs with rfl | hs
    · exact ht
    · refine List.mem_cons_of_mem _ (List.mem_append.mpr ?_)
      exact (List.mem_append.mp hs).imp ihl ihr

theorem mem_paths_of_mem_parts {path : List Step} (hs : s ∈ q.parts)
    (hpath : path ∈ s.paths) : path ∈ q.paths := by
  induction q with
  | literal v | resolve path =>
    cases List.mem_singleton.mp hs
    exact hpath
  | not operand ih =>
    rcases List.mem_cons.mp hs with rfl | hs
    · exact hpath
    · exact ih hs
  | binary op left right ihl ihr =>
    rcases List.mem_cons.mp hs with rfl | hs
    · exact hpath
    · exact List.mem_append.mpr ((List.mem_append.mp hs).imp ihl ihr)

theorem mem_parts_self : q ∈ q.parts := by
  cases q <;> simp [parts]

end RecordQuery.Query
