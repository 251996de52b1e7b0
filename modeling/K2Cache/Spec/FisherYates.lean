import K2Cache.Lib.SparsePerm
import K2Cache.Spec.NodeIds

/-!
# fisher_yates

The first values of a shuffle of `0 .. choice_set_size - 1`, without the array: the numbers
that have been moved are in a hash map. `generate_random_dataset` takes the real ids of its
nodes, and among their positions its predicates, from it.

What `std::rand` returns is a parameter: a number for each call.
-/

namespace K2Cache

open Lib

/-- A division the processor does not do. -/
inductive Trap where
  | divisionByZero
deriving DecidableEq, Repr

/-- `a % b`. -/
def remainder (a b : UInt64) : Except Trap UInt64 := if b = 0 then .error .divisionByZero else .ok (a % b)

/-- `a / b`. -/
def quotient (a b : UInt64) : Except Trap UInt64 := if b = 0 then .error .divisionByZero else .ok (a / b)

/-- `state[i]` on the right: a number that is not there gets the value 0. -/
def stateAt (state : OrdMap UInt64 UInt64) (i : UInt64) : UInt64 × OrdMap UInt64 UInt64 :=
  match state.find? i with
  | some v => (v, state)
  | none => (0, state.insert i 0)

/-- A round of the first loop of `fisher_yates`; `rand` is what `std::rand` returns. -/
def fisherYatesRound (rand choiceSetSize i : UInt64) (state : OrdMap UInt64 UInt64) :
    Except Trap (OrdMap UInt64 UInt64) := do
  let r ← remainder rand (choiceSetSize - i)
  let randomNumber := r + i
  let whichRand := (state.find? randomNumber).getD randomNumber
  let whichI := (state.find? i).getD i
  pure ((state.insert i whichRand).insert randomNumber whichI)

/-- The first loop, with the rounds that are left. -/
def fisherYatesLoop (rand : ℕ → UInt64) (choiceSetSize : UInt64) :
    ℕ → UInt64 → OrdMap UInt64 UInt64 → Except Trap (OrdMap UInt64 UInt64)
  | 0, _, state => pure state
  | n + 1, i, state => do
    let state ← fisherYatesRound (rand i.toNat) choiceSetSize i state
    fisherYatesLoop rand choiceSetSize n (i + 1) state

/-- The second loop. -/
def fisherYatesResult : ℕ → UInt64 → OrdMap UInt64 UInt64 → List UInt64
  | 0, _, _ => []
  | n + 1, i, state =>
    let v := stateAt state i
    (v.1 + 1) :: fisherYatesResult n (i + 1) v.2

/-- `fisher_yates`. -/
def fisherYates (rand : ℕ → UInt64) (resultSize choiceSetSize : UInt64) : Except Trap (List UInt64) := do
  let state ← fisherYatesLoop rand choiceSetSize resultSize.toNat 0 ∅
  pure (fisherYatesResult resultSize.toNat 0 state)

/-! ## generate_random_dataset -/

/-- What `generate_random_dataset` has chosen when it starts to write. -/
structure RandomDatasetPlan where
  nodeIds : List UInt64
  predicateIds : List UInt64
  triplesPerPredicate : UInt64
  remaining : UInt64
deriving DecidableEq, Repr

/-- `generate_random_dataset`, up to the trees; `rand` goes on behind the draws of the first
call. -/
def planRandomDataset (rand : ℕ → UInt64) (triplesNum resourcesNum : UInt64) : Except Trap RandomDatasetPlan := do
  let chosen ← fisherYates rand resourcesNum ((1 : UInt64) <<< 63)
  let nodeIds := chosen.mergeSort
  let size := UInt64.ofNat nodeIds.length
  let predicatesCount := if size > 10 then size / 10 else 1
  let selected ← fisherYates (fun n => rand (resourcesNum.toNat + n)) predicatesCount size
  let predicateIds := selected.mergeSort
  let count := UInt64.ofNat predicateIds.length
  let triplesPerPredicate ← quotient triplesNum count
  let remaining ← remainder triplesNum count
  pure ⟨nodeIds, predicateIds, triplesPerPredicate, remaining⟩

end K2Cache
