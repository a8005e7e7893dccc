import EsModules.Graph

/-!
# Execution order and import cycles

Both walk the graph depth first from the entries and enter each module once.
-/

namespace EsModules
namespace Graph

/-- The modules entered so far, and those that are done, last one first. -/
structure Walk where
  visited : List ModuleId
  order : List ModuleId
  deriving Repr, Inhabited

/-- Enters a module and what it imports, at most `depth` modules deep. -/
def visitPostOrder (g : Graph) : Nat → Walk → ModuleId → Walk
  | 0, walk, _ => walk
  | depth + 1, walk, id =>
      if id.isAmong walk.visited then walk
      else
        let entered : Walk := ⟨id :: walk.visited, walk.order⟩
        let done := (g.dependencies id).foldl (visitPostOrder g depth) entered
        ⟨done.visited, id :: done.order⟩

/-- All modules reachable from the entries, each behind its dependencies.  Of a cycle the module
that is entered first comes last. -/
def executionOrder (g : Graph) : List ModuleId :=
  (g.entries.foldl (visitPostOrder g (g.modules.length + 1)) ⟨[], []⟩).order.reverse

/-- The modules entered so far, and the cycles found. -/
structure CycleSearch where
  visited : List ModuleId
  cycles : List (List ModuleId)
  deriving Repr, Inhabited

/-- Enters a module below those of `stack`, innermost first.  A module on the stack closes a
cycle. -/
def collectCycles (g : Graph) : Nat → List ModuleId → CycleSearch → ModuleId → CycleSearch
  | 0, _, search, _ => search
  | depth + 1, stack, search, id =>
      if id.isAmong stack then
        let inner := stack.takeWhile (!·.same id)
        let start := (stack.drop inner.length).take 1
        { search with cycles := search.cycles ++ [(inner ++ start).reverse] }
      else if id.isAmong search.visited then search
      else
        (g.dependencies id).foldl (collectCycles g depth (id :: stack))
          { search with visited := id :: search.visited }

/-- The import cycles reachable from the entries, one for each import that closes one. -/
def cycles (g : Graph) : List (List ModuleId) :=
  (g.entries.foldl (collectCycles g (g.modules.length + 2) []) ⟨[], []⟩).cycles

end Graph
end EsModules
