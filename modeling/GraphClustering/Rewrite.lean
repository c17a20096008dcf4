/-
  The rewriting half of `GraphClustingByDevice`: the fallback metadata, the functions and
  calls created from the metadata, and the erasure of the outlined ops.

  * `insertOpsRecursively`, `getFunctionMetadatasFallback`: the host ops closed under
    their operands' defining ops, and the two entries of the fallback;
  * `createFunctions`: one function per entry, its ops cloned with the inputs mapped to
    the arguments;
  * `createCalls`: for each entry, a call inserted right before the entry's last op, and
    the uses of its results replaced by the call's (`replaceResults`, with the positions of
    the terminator handed out one by one when `dupOutputs` is set);
  * `eraseOps`: the erase loop, which aborts on an op that still has a use;
  * `graphClustingByDevice`: the pass on one function, from the strategy to the erase loop;
  * `clusterIOSpec`: inputs and outputs of a cluster as the spec describes them;
  * `fallback_call_uses_later_call`: the fallback puts a device call before the host call
    whose result it takes.
-/
import GraphClustering.Candidates

namespace GraphClustering

open List

/-! ## Rewriting operands -/

mutual
/-- The op with every operand, its own and those of the ops nested in it, passed through
    `g`: a clone under an `IRMapping`, or a replacement of uses. -/
def Operation.mapOperands (g : Value → Value) : Operation → Operation
  | .mk n vs as rs => .mk n (vs.map g) as (Operation.mapOperandsList g rs)

def Operation.mapOperandsList (g : Value → Value) : List Operation → List Operation
  | [] => []
  | op :: ops => op.mapOperands g :: Operation.mapOperandsList g ops
end

/-- `IRMapping::lookupOrDefault`; the mapping lists its pairs latest `map` first. -/
def lookupOrDefault (mapping : List (Value × Value)) (v : Value) : Value :=
  (mapping.lookup v).getD v

/-- `v`, or `new` if `v` is `old`. -/
def replaceValue (old new v : Value) : Value := if v = old then new else v

/-- `Value::replaceAllUsesWith` on a function: every use, the terminator's included. -/
def replaceAllUsesWith (old new : Value) (f : Func) : Func :=
  ⟨f.symName, f.body.map (·.mapOperands (replaceValue old new)),
    f.terminator.mapOperands (replaceValue old new)⟩

/-- `Value::replaceAllUsesExcept(new, retOp)`: every use but the terminator's. -/
def replaceAllUsesExcept (old new : Value) (f : Func) : Func :=
  { f with body := f.body.map (·.mapOperands (replaceValue old new)) }

/-- `retOp->getOpOperand(idx).set(new)`. -/
def setRetOperand (idx : Nat) (new : Value) (f : Func) : Func :=
  { f with terminator := match f.terminator with
    | .mk n vs as rs => .mk n (vs.set idx new) as rs }

/-- `OpBuilder(anchor)` then `create`: `op` inserted right before the op `anchor`. -/
def insertCallBefore (anchor : Nat) (op : Operation) : List Operation → List Operation
  | [] => []
  | o :: os => if o.name = anchor then op :: o :: os else o :: insertCallBefore anchor op os

/-! ## `createCalls` -/

/-- The positions of `v` among the operands `vs`, lowest first: `retOperand2Indices[v]`,
    filled from the last operand to the first, read from the back where `pop_back`
    takes. -/
def indicesOf (vs : List Value) (v : Value) : List Nat :=
  (range vs.length).filter fun i => vs[i]? = some v

/-- The loop of `createCalls` over the results of one entry: result `i` of the call
    `callName` replaces `results[i]`. With `dupOutputs`, the terminator keeps its uses and
    gets the call's result at the next position of `v` among its operands `snap` (the
    terminator's operands when the entry's turn came); `taken` lists the values already
    handed a position. `none` is the failed assertion on an empty vector. -/
def replaceResults (dupOutputs : Bool) (callName : Nat) (snap : List Value) :
    Nat → List Value → List Value → Func → List (Value × Value) →
      Option (Func × List (Value × Value))
  | _, [], _, f, mapping => some (f, mapping)
  | i, v :: vs, taken, f, mapping =>
    let new := Value.result callName i
    if dupOutputs then
      let f := replaceAllUsesExcept v new f
      if v ∈ snap then
        match (indicesOf snap v)[taken.count v]? with
        | none => none
        | some idx => replaceResults dupOutputs callName snap (i + 1) vs (v :: taken)
            (setRetOperand idx new f) ((v, new) :: mapping)
      else replaceResults dupOutputs callName snap (i + 1) vs taken f ((v, new) :: mapping)
    else
      replaceResults dupOutputs callName snap (i + 1) vs taken (replaceAllUsesWith v new f)
        ((v, new) :: mapping)

/-- One entry of `createCalls`: the call `callName` to the entry's function, on the
    inputs under `mapping`, inserted before `metadata.ops.back()`. The source creates the
    call, clones it with `mapping` and erases the first one, so the inputs pass through
    `mapping` twice. -/
def createCall (dupOutputs : Bool) (callName : Nat) (md : FunctionMetadata)
    (f : Func) (mapping : List (Value × Value)) : Option (Func × List (Value × Value)) := do
  let anchor ← md.ops.getLast?
  let inputsAfterMapping := md.inputs.map (lookupOrDefault mapping)
  let call := Operation.mk callName (inputsAfterMapping.map (lookupOrDefault mapping)) [] []
  let f := { f with body := insertCallBefore anchor call f.body }
  replaceResults dupOutputs callName f.terminator.operands 0 md.results [] f mapping

/-- The loop of `createCalls`: entry `k` gets the call with handle `base + k`, which calls
    the `k`-th created function. -/
def createCallsFrom (dupOutputs : Bool) :
    Nat → List FunctionMetadata → Func → List (Value × Value) → Option Func
  | _, [], f, _ => some f
  | callName, md :: mds, f, mapping => do
    let (f, mapping) ← createCall dupOutputs callName md f mapping
    createCallsFrom dupOutputs (callName + 1) mds f mapping

/-- `createCalls`, the new calls numbered from the fresh handle `base`. -/
def createCalls (base : Nat) (metadatas : List FunctionMetadata) (f : Func)
    (dupOutputs : Bool) : Option Func :=
  createCallsFrom dupOutputs base metadatas f []

/-- A handle of no op of `f`. -/
def freshHandle (f : Func) : Nat := (f.walk.map Operation.name).foldr max 0 + 1

/-! ## `createFunctions` and the erase loop -/

/-- `createFunctions` for one entry of `f`: the inputs mapped to the arguments in order,
    the entry's ops cloned under that mapping, and a return of the results under it. The
    clones keep their handles (they live in the new function); `retName` is the handle
    of the new return. The function's attributes are not modelled. -/
def createFunction (f : Func) (retName : Nat) (md : FunctionMetadata) : Func :=
  let mapping := md.inputs.enum.foldl (fun m p => (p.2, Value.arg p.1) :: m) []
  ⟨f.symName ++ "_" ++ md.deviceAttr, md.ops.map fun n => (f.opOf n).mapOperands
    (lookupOrDefault mapping), .mk retName (md.results.map (lookupOrDefault mapping)) [] []⟩

def createFunctions (f : Func) (retName : Nat) (metadatas : List FunctionMetadata) :
    List Func :=
  metadatas.map (createFunction f retName)

/-- `Operation::erase` of the op `n` of the body; `none` when a result of `n` still has a
    use (the assertion of the use list's destructor). -/
def eraseOp (f : Func) (n : Nat) : Option Func :=
  if (f.body ++ [f.terminator]).any fun o =>
      o.name != n && o.deepOperands.any (·.getDefiningOp == some n) then none
  else some { f with body := f.body.filter (·.name != n) }

/-- The erase loop of `GraphClustingByDevice`: the ops of each entry, last first. -/
def eraseOps (metadatas : List FunctionMetadata) (f : Func) : Option Func :=
  metadatas.foldlM (fun f md => md.ops.reverse.foldlM eraseOp f) f

/-! ## The fallback -/

/-- `insertOpsRecursively`: `op` and, through the defining ops of its operands, all it
    depends on. The stack holds distinct ops, so `fuel` one more than the ops of the
    function never runs out. -/
def insertOpsRecursively (f : Func) : Nat → Nat → List Nat → List Nat
  | 0, _, opSet => opSet
  | fuel + 1, op, opSet =>
    if op ∈ opSet then opSet
    else (f.opOf op).operands.foldl (fun s v => match v.getDefiningOp with
      | some d => insertOpsRecursively f fuel d s
      | none => s) (opSet ++ [op])

/-- `getFunctionMetadatasFallback`: the host entry (the ops of the body in `hostOps`),
    if any, then the device entry (the others), if any; `none` when `validateSubGraphFn`
    rejects the device ops. -/
def getFunctionMetadatasFallback (io : ClusterIO) (f : Func) (attrName device : String)
    (dupOutputs : Bool) (validateSubGraphFn : Option (List Nat → Bool)) :
    Option (List FunctionMetadata) :=
  let hostOps := f.body.foldl (fun s op => if op.isHostOp attrName then
    insertOpsRecursively f (f.walk.length + 1) op.name s else s) []
  let stats := if dupOutputs then some (retStats f) else none
  let hostEntry := (f.body.map Operation.name).filter (· ∈ hostOps)
  let host : List FunctionMetadata := if hostOps ≠ [] then
    [⟨"host", hostEntry, io.getInputsOfCluster hostEntry,
      io.getOutputsOfCluster hostEntry stats⟩] else []
  let deviceEntry := (f.body.map Operation.name).filter (· ∉ hostOps)
  if deviceEntry ≠ [] then
    if rejects validateSubGraphFn deviceEntry then none
    else some (host ++ [⟨device, deviceEntry, io.getInputsOfCluster deviceEntry,
      io.getOutputsOfCluster deviceEntry stats⟩])
  else some host

/-! ## The pass -/

/-- The values of `GraphClusteringAlgo`. -/
inductive GraphClusteringAlgo where
  | topDown
  | bottomUp
  | greedy
  | fallback
  deriving DecidableEq, Repr

/-- The function `f` with its body in the order of the block `block` (terminator last). -/
def ClusterState.func (f : Func) (st : ClusterState) : Func :=
  ⟨f.symName, st.block.dropLast.map f.opOf, f.terminator⟩

/-- A directed strategy on `f`, then `getFunctionMetadatas`: `none` on an assertion, else
    the metadata (`none` for `std::nullopt`) and the function with its block reordered. -/
def runDirected (io : ClusterIO) (algo : DirectedAlgo) (isConstantLike : Operation → Bool)
    (usesOf : Nat → List Nat) (f : Func) (attrName device : String)
    (dupOutputs enableMultiGraph : Bool) (validateSubGraphFn : Option (List Nat → Bool))
    (order : List Nat) : Option (Option (List FunctionMetadata) × Func) := do
  let (cands, st) ← deviceClusteringAlgo algo isConstantLike usesOf f attrName order
  return (getFunctionMetadatas io f st cands device dupOutputs enableMultiGraph
    validateSubGraphFn, st.func f)

/-- The number of ops the entries cover (the `std::accumulate` of `kGreedy`). -/
def coveredOps (metadatas : List FunctionMetadata) : Nat :=
  metadatas.foldl (fun val md => val + md.ops.length) 0

/-- The metadata of `GraphClustingByDevice`'s `switch`, and the function it leaves.
    `order` is the iteration order of `op2cluster` on `funcOp`, and `orderTD`, `orderBU`
    those on the two clones of `kGreedy`. The clones are given `funcOp`'s use-list order
    `usesOf`; the use lists of a clone may be in another order, which the model does not
    represent. -/
def getMetadatas (io : ClusterIO) (algo : GraphClusteringAlgo)
    (isConstantLike : Operation → Bool) (usesOf : Nat → List Nat) (f : Func)
    (attrName device : String) (dupOutputs enableMultiGraph : Bool)
    (validateSubGraphFn : Option (List Nat → Bool)) (order orderTD orderBU : List Nat) :
    Option (Option (List FunctionMetadata) × Func) :=
  let run (a : DirectedAlgo) := runDirected io a isConstantLike usesOf f attrName device
    dupOutputs enableMultiGraph validateSubGraphFn
  match algo with
  | .topDown => run .topDown order
  | .bottomUp => run .bottomUp order
  | .greedy => do
    let (td, _) ← run .topDown orderTD
    let (bu, _) ← run .bottomUp orderBU
    match td, bu with
    | some t, some b => if coveredOps t > coveredOps b then run .topDown order
                        else run .bottomUp order
    | some _, none => run .topDown order
    | none, some _ => run .bottomUp order
    | none, none => some (none, f)
  | .fallback => some (getFunctionMetadatasFallback io f attrName device dupOutputs
      validateSubGraphFn, f)

/-- `GraphClustingByDevice` on one function `f`, after `replicateDefiningOp`: `none` on
    failure or a failed assertion, else the created functions and the rewritten `f`. -/
def graphClustingByDevice (io : ClusterIO) (algo : GraphClusteringAlgo)
    (isConstantLike : Operation → Bool) (usesOf : Nat → List Nat) (f : Func)
    (attrName device : String) (dupOutputs enableMultiGraph : Bool)
    (validateSubGraphFn : Option (List Nat → Bool)) (order orderTD orderBU : List Nat) :
    Option (List Func × Func) := do
  let (metadatas, g) ← getMetadatas io algo isConstantLike usesOf f attrName device dupOutputs
    enableMultiGraph validateSubGraphFn order orderTD orderBU
  let metadatas ← metadatas
  let fns := createFunctions g (freshHandle f) metadatas
  let g ← createCalls (freshHandle f + 1) metadatas g dupOutputs
  let g ← eraseOps metadatas g
  return (fns, g)

/-! ## Inputs and outputs of a cluster -/

/-- `getInputsOfCluster` and `getOutputsOfCluster` as the spec has them: the inputs are
    the values used by the ops (or by ops nested in them) and defined by none of them,
    each once, in the order of first use; the outputs are the results of the ops used by
    an op outside them (or nested in one), op by op in the order of first use, each
    repeated `stats v` times when `stats` is given and `v` is returned. -/
def clusterIOSpec (f : Func) : ClusterIO where
  getInputsOfCluster ops :=
    let inside := ((ops.map f.opOf).flatMap Operation.walk).map Operation.name
    (((ops.map f.opOf).flatMap Operation.deepOperands).filter fun v =>
      v.getDefiningOp.all (· ∉ inside)).eraseDups
  getOutputsOfCluster ops stats :=
    let outside := (f.ops.filter (·.name ∉ ops)).flatMap Operation.deepOperands
    ops.flatMap fun n => ((outside.filter (·.getDefiningOp == some n)).eraseDups).flatMap
      fun v => replicate (match stats with | some s => max (s v) 1 | none => 1) v

/-! ## The fallback orders calls by their last op -/

instance (f : Func) (u d : Nat) : Decidable (f.Uses u d) :=
  inferInstanceAs (Decidable (∃ v ∈ _, _))

/-- A block with the host ops `h` (handle 0) and `h2` (2) around a device op `d` (1) that
    uses `h`; the terminator (3) returns `d` and `h2`. -/
def fallbackFunc : Func :=
  ⟨"main", [.mk 0 [] [("device", "host")] [], .mk 1 [.result 0 0] [] [],
    .mk 2 [] [("device", "host")] []], .mk 3 [.result 1 0, .result 2 0] [] []⟩

/-- **The fallback can call a function before the call that defines its input.** The
    fallback's host entry is `[h, h2]` and its device entry `[d]`, which takes `h`'s
    result. `createCalls` puts the host call (handle 5) before `h2`, after `d`, and the
    device call (handle 6) before `d`, on the host call's result. The pass succeeds (the
    erase loop finds no op with a use), and its block
    `[call6(call5#0), call5(), return(call6#0, call5#1)]` uses a value before defining it. -/
theorem fallback_call_uses_later_call :
    WellFormed fallbackFunc ∧
    getFunctionMetadatasFallback (clusterIOSpec fallbackFunc) fallbackFunc "device" "cuda" false
        none =
      some [⟨"host", [0, 2], [], [.result 0 0, .result 2 0]⟩,
        ⟨"cuda", [1], [.result 0 0], [.result 1 0]⟩] ∧
    ∃ fns g, graphClustingByDevice (clusterIOSpec fallbackFunc) .fallback (fun _ => false)
        (fun _ => []) fallbackFunc "device" "cuda" false false none [] [] [] = some (fns, g) ∧
      g.ops.map (fun o => (o.name, o.operands)) =
        [(6, [.result 5 0]), (5, []), (3, [.result 6 0, .result 5 1])] ∧
      g.Uses 6 5 ∧ Before g.names 6 5 ∧ ¬DepOrdered g g.names := by
  refine ⟨by decide, by decide, _, _, rfl, by decide, by decide, by decide, fun h => ?_⟩
  exact Before.not_swap (by decide) (show Before _ 6 5 by decide)
    (h 6 5 (by decide) (by decide) (by decide))

end GraphClustering
