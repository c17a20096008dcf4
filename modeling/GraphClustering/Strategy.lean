/-
  The directed strategies: `TopDownDeviceClustering` and `BottomUpDeviceClustering`,
  `populateCandidates` and `getFunctionMetadatas`.

  * `getCluster`, `mergeEach`: the `mergeDeviceClustersProgressively` loops of both
    strategies, which differ only in the ops they visit and whose clusters they merge
    with the current one (`topDownMerge`, `bottomUpMerge`);
  * `mergeWorklist`, `populateLoop`, `populateCandidates`: the worklist of root clusters
    (in the iteration order `order` of the `DenseMap`), sorted stably by size, and the
    final sort of the candidates;
  * `getFunctionMetadatas`: one entry per candidate, or the first accepted one;
  * `Reach.mergeEach` and `Reach.populateCandidates`: every call these make is a step of a
    run; `populateCandidates` returns every root exactly once, sorted by size.
-/
import Mathlib.Data.List.Sort
import GraphClustering.Run

namespace GraphClustering

open List OpClusterMap

/-! ## The strategies -/

/-- `DeviceClusteringAlgoBaseHelper::getCluster(op)`: `nullptr` (`none`) for a null op or
    one that is not a key, else the root of its cluster (`getRoot` compresses paths). -/
def getCluster (st : ClusterState) : Option Nat → Option (Option Nat × ClusterState)
  | none => some (none, st)
  | some op =>
    match st.op2cluster.find op with
    | none => some (none, st)
    | some _ => (getRoot st.op2cluster st.op2cluster.length op).map
        fun (r, m) => (some r, ⟨st.block, m⟩)

/-- The inner loop of `mergeDeviceClustersProgressively`: for each op of `pres` (`none`
    for `nullptr`), `tryMerge` its cluster into the current one `cur`, which becomes the
    surviving root when they merge. -/
def mergeProgressively (f : Func) (cur : Option Nat) :
    List (Option Nat) → ClusterState → Option ClusterState
  | [], st => some st
  | p :: ps, st => do
    let (pre, st) ← getCluster st p
    let (merged, st) ← tryMerge true f st pre cur
    mergeProgressively f (merged.or cur) ps st

/-- The outer loop of `mergeDeviceClustersProgressively`: the cluster of each op of `ops`
    is merged with those of `pres op`. -/
def mergeEach (f : Func) (pres : Operation → List (Option Nat)) :
    List Operation → ClusterState → Option ClusterState
  | [], st => some st
  | op :: ops, st => do
    let (cur, st) ← getCluster st (some op.name)
    let st ← mergeProgressively f cur (pres op) st
    mergeEach f pres ops st

/-- `TopDownDeviceClustering::mergeDeviceClustersProgressively`: the ops of the block in
    order, each with the defining ops of its operands. -/
def topDownMerge (f : Func) (st : ClusterState) : Option ClusterState :=
  mergeEach f (fun op => op.operands.map Value.getDefiningOp) f.body st

/-- `BottomUpDeviceClustering::mergeDeviceClustersProgressively`: the ops of the block in
    reverse, each with the owners of the uses of its results, `usesOf n` listing them in
    the order of the use lists. -/
def bottomUpMerge (f : Func) (usesOf : Nat → List Nat) (st : ClusterState) :
    Option ClusterState :=
  mergeEach f (fun op => (usesOf op.name).map some) f.body.reverse st

/-! ## `populateCandidates` -/

/-- The order of `CompareByNumOps` read as "`a` may come before `b`": `a` has at least as
    many ops as `b`. A stable sort by it is `std::list::sort` with `CompareByNumOps`. -/
def sizeGe (m : OpClusterMap) (a b : Nat) : Prop := (m.ops b).length ≤ (m.ops a).length

instance (m : OpClusterMap) : DecidableRel (sizeGe m) := fun _ _ => Nat.decLe _ _

instance (m : OpClusterMap) : IsTotal Nat (sizeGe m) := ⟨fun _ _ => le_total _ _⟩

instance (m : OpClusterMap) : IsTrans Nat (sizeGe m) := ⟨fun _ _ _ h₁ h₂ => le_trans h₂ h₁⟩

/-- The root clusters, in the iteration order `order` of the keys of `op2cluster`. -/
def rootsIn (m : OpClusterMap) (order : List Nat) : List Nat :=
  order.filter fun k => (m.find k).any fun c => c.mergedInto.isNone

theorem mem_rootsIn {m : OpClusterMap} {order : List Nat} {k : Nat} :
    k ∈ rootsIn m order ↔ k ∈ order ∧ IsRoot m k := by
  simp only [rootsIn, mem_filter, IsRoot]
  cases m.find k <;> simp

/-- The inner loop of `populateCandidates`: `tryMerge(*iter, cluster)` for each entry of
    the worklist, following the surviving root and erasing the entries merged. -/
def mergeWorklist (f : Func) (cluster : Nat) :
    List Nat → ClusterState → Option (Nat × List Nat × ClusterState)
  | [], st => some (cluster, [], st)
  | c :: rest, st => do
    let (merged, st) ← tryMerge true f st (some c) (some cluster)
    match merged with
    | some survivor => mergeWorklist f survivor rest st
    | none => do
      let (cluster, rest, st) ← mergeWorklist f cluster rest st
      return (cluster, c :: rest, st)

/-- The outer loop of `populateCandidates`; `fuel` bounds the number of rounds (each one
    takes the front of the worklist). -/
def populateLoop (f : Func) :
    Nat → List Nat → ClusterState → List Nat → Option (List Nat × ClusterState)
  | _, [], st, cands => some (cands, st)
  | 0, _ :: _, _, _ => none
  | fuel + 1, c :: rest, st, cands => do
    let (cluster, rest, st) ← mergeWorklist f c rest st
    populateLoop f fuel rest st (cands ++ [cluster])

/-- `DeviceClusteringAlgoBaseHelper::populateCandidates`, with `order` the iteration order
    of the `DenseMap` `op2cluster`: the root clusters sorted stably by size, merged by
    the worklist loop, then the candidates sorted by size. `llvm::sort` is not stable: it
    leaves candidates of equal size in an unspecified order (under `EXPENSIVE_CHECKS` it
    shuffles them first). The model takes the stable order, candidates of equal size in
    the order the worklist loop produced them. -/
def populateCandidates (f : Func) (order : List Nat) (st : ClusterState) :
    Option (List Nat × ClusterState) := do
  let workList := (rootsIn st.op2cluster order).insertionSort (sizeGe st.op2cluster)
  let (cands, st) ← populateLoop f workList.length workList st []
  return (cands.insertionSort (sizeGe st.op2cluster), st)

/-- The directed values of `GraphClusteringAlgo`. -/
inductive DirectedAlgo where
  | topDown
  | bottomUp
  deriving DecidableEq, Repr

/-- `mergeDeviceClustersProgressively` of the strategy `algo`. -/
def mergeDeviceClustersProgressively (algo : DirectedAlgo) (usesOf : Nat → List Nat) (f : Func)
    (st : ClusterState) : Option ClusterState :=
  match algo with
  | .topDown => topDownMerge f st
  | .bottomUp => bottomUpMerge f usesOf st

/-- `DeviceClusteringAlgoBase`: the constructor's singleton clusters, the strategy's
    merges, then `populateCandidates`. Returns the candidates and the final state. -/
def deviceClusteringAlgo (algo : DirectedAlgo) (isConstantLike : Operation → Bool)
    (usesOf : Nat → List Nat) (f : Func) (attrName : String) (order : List Nat) :
    Option (List Nat × ClusterState) := do
  let st ← mergeDeviceClustersProgressively algo usesOf f (initState isConstantLike f attrName)
  populateCandidates f order st

/-! ## `getFunctionMetadatas` -/

/-- What `createFunctions` and `createCalls` read of a `FunctionMetadata`: the device,
    the ops, and the inputs and results of the function to create. -/
structure FunctionMetadata where
  deviceAttr : String
  ops : List Nat
  inputs : List Value
  results : List Value
  deriving DecidableEq, Repr

/-- The helpers `getInputsOfCluster` and `getOutputsOfCluster` of the pass's utilities; the
    second one is given `retStats` when `dupOutputs` is set. -/
structure ClusterIO where
  getInputsOfCluster : List Nat → List Value
  getOutputsOfCluster : List Nat → Option (Value → Nat) → List Value

/-- `retStats`: how many times the terminator returns each value. -/
def retStats (f : Func) (v : Value) : Nat := f.terminator.operands.count v

/-- `validateSubGraphFn` rejects `ops` (a null function rejects nothing). -/
def rejects (validateSubGraphFn : Option (List Nat → Bool)) (ops : List Nat) : Bool :=
  validateSubGraphFn.any fun v => !v ops

/-- The loop of `getFunctionMetadatas` over the candidates. -/
def metadataLoop (io : ClusterIO) (device : String) (stats : Option (Value → Nat))
    (enableMultiGraph : Bool) (validateSubGraphFn : Option (List Nat → Bool))
    (m : OpClusterMap) : List Nat → List FunctionMetadata
  | [] => []
  | c :: cs =>
    if m.ops c = [] ∨ rejects validateSubGraphFn (m.ops c) then
      metadataLoop io device stats enableMultiGraph validateSubGraphFn m cs
    else
      ⟨device, m.ops c, io.getInputsOfCluster (m.ops c), io.getOutputsOfCluster (m.ops c) stats⟩ ::
        if enableMultiGraph then
          metadataLoop io device stats enableMultiGraph validateSubGraphFn m cs
        else []

/-- `DeviceClusteringAlgoBaseHelper::getFunctionMetadatas`: `none` when there is no
    candidate or the first one is empty. -/
def getFunctionMetadatas (io : ClusterIO) (f : Func) (st : ClusterState) (cands : List Nat)
    (device : String) (dupOutputs enableMultiGraph : Bool)
    (validateSubGraphFn : Option (List Nat → Bool)) : Option (List FunctionMetadata) :=
  match cands with
  | [] => none
  | first :: _ =>
    if st.op2cluster.ops first = [] then none
    else some (metadataLoop io device (if dupOutputs then some (retStats f) else none)
      enableMultiGraph validateSubGraphFn st.op2cluster cands)

/-! ## Every call of a strategy is a step of a run -/

section Steps

variable {f : Func} {isConstantLike : Operation → Bool} {attrName : String} {st : ClusterState}

/-- `tryMerge` on two distinct roots: `lhs` merged into `rhs`, `rhs` into `lhs`, or no
    merge. -/
theorem Inv.tryMerge_roots {keys : List Nat} (hwf : WellFormed f) (h : Inv f keys st)
    {x c : Nat} (hx : IsRoot st.op2cluster x) (hc : IsRoot st.op2cluster c) (hne : x ≠ c) :
    ∃ res st', GraphClustering.tryMerge true f st (some x) (some c) = some (res, st') ∧
      ((res = some c ∧ ∀ k, IsRoot st'.op2cluster k ↔ IsRoot st.op2cluster k ∧ k ≠ x) ∨
       (res = some x ∧ ∀ k, IsRoot st'.op2cluster k ↔ IsRoot st.op2cluster k ∧ k ≠ c) ∨
       (res = none ∧ ∀ k, IsRoot st'.op2cluster k ↔ IsRoot st.op2cluster k)) := by
  obtain ⟨b₁, st₁, e₁, h₁, hfail₁, hok₁⟩ := h.tryMergeInto hwf hne hx hc
  obtain ⟨cx, hcx, hnx⟩ := hx
  obtain ⟨cc, hcc, hnc⟩ := hc
  simp only [GraphClustering.tryMerge, hne, if_false, hcx, hcc, hnx, hnc, Option.isSome_none,
    Bool.or_false, Bool.false_eq_true, e₁, Option.bind_eq_bind, Option.some_bind]
  cases b₁
  · obtain ⟨-, hm₁⟩ := hfail₁ rfl
    obtain ⟨b₂, st₂, e₂, -, hfail₂, hok₂⟩ := h₁.tryMergeInto hwf (Ne.symm hne)
      (hm₁.isRoot_iff.2 ⟨cc, hcc, hnc⟩) (hm₁.isRoot_iff.2 ⟨cx, hcx, hnx⟩)
    simp only [e₂, Option.some_bind, Bool.false_eq_true, if_false]
    cases b₂
    · exact ⟨_, _, rfl, Or.inr (Or.inr ⟨rfl, fun k => (hfail₂ rfl).2.isRoot_iff.trans
        hm₁.isRoot_iff⟩)⟩
    · exact ⟨_, _, rfl, Or.inr (Or.inl ⟨rfl, fun k => (hok₂ rfl k).trans
        (and_congr_left' hm₁.isRoot_iff)⟩)⟩
  · exact ⟨_, _, rfl, Or.inl ⟨rfl, hok₁ rfl⟩⟩

variable (hwf : WellFormed f)
include hwf

theorem Reach.getCluster_step (hr : Reach f (initState isConstantLike f attrName) st)
    (p : Option Nat) :
    ∃ c st', GraphClustering.getCluster st p = some (c, st') ∧
      Reach f (initState isConstantLike f attrName) st' ∧
      ∀ k, c = some k → IsRoot st'.op2cluster k := by
  have h := hr.inv hwf
  cases p with
  | none => exact ⟨none, st, rfl, hr, by simp⟩
  | some op =>
    cases hk : st.op2cluster.find op with
    | none => exact ⟨none, st, by simp [GraphClustering.getCluster, hk], hr, by simp⟩
    | some c₀ =>
      obtain ⟨r, hr'⟩ := h.rooted op (h.keys_eq ▸ mem_keys_of_find hk)
      obtain ⟨m', he, hm'⟩ := getRoot_of_root hr'
      refine ⟨some r, ⟨st.block, m'⟩, by simp [GraphClustering.getCluster, hk, he],
        hr.compress he, ?_⟩
      rintro k ⟨⟩
      exact hm'.isRoot_iff.2 (let ⟨_, h⟩ := hr'; h.isRoot)

/-- `tryMerge` on `nullptr` or keys returns, and what it returns is `nullptr` or a key. -/
theorem Reach.tryMerge_step (hr : Reach f (initState isConstantLike f attrName) st)
    {l r : Option Nat} (hl : ∀ k, l = some k → k ∈ st.op2cluster.keys)
    (hr' : ∀ k, r = some k → k ∈ st.op2cluster.keys) :
    ∃ res st', GraphClustering.tryMerge true f st l r = some (res, st') ∧
      Reach f (initState isConstantLike f attrName) st' ∧
      ∀ k, res = some k → k ∈ st'.op2cluster.keys := by
  have h := hr.inv hwf
  have hnone : GraphClustering.tryMerge true f st l r = some (none, st) →
      ∃ res st', GraphClustering.tryMerge true f st l r = some (res, st') ∧
        Reach f (initState isConstantLike f attrName) st' ∧
        ∀ k, res = some k → k ∈ st'.op2cluster.keys := fun e => ⟨none, st, e, hr, by simp⟩
  obtain _ | a := l
  · exact hnone rfl
  obtain _ | b := r
  · exact hnone rfl
  by_cases hab : a = b
  · exact hnone (by simp [GraphClustering.tryMerge, hab])
  obtain ⟨ca, hca⟩ := Option.isSome_iff_exists.1 (find_isSome_iff.2 (hl a rfl))
  obtain ⟨cb, hcb⟩ := Option.isSome_iff_exists.1 (find_isSome_iff.2 (hr' b rfl))
  by_cases hroots : ca.mergedInto = none ∧ cb.mergedInto = none
  · obtain ⟨res, st', e, hcases⟩ := h.tryMerge_roots hwf ⟨ca, hca, hroots.1⟩ ⟨cb, hcb, hroots.2⟩ hab
    have hk : st'.op2cluster.keys = st.op2cluster.keys :=
      ((hr.merge e).inv hwf).keys_eq.trans h.keys_eq.symm
    refine ⟨res, st', e, hr.merge e, fun k hk' => hk ▸ ?_⟩
    rcases hcases with ⟨rfl, -⟩ | ⟨rfl, -⟩ | ⟨rfl, -⟩
    · exact (Option.some.inj hk') ▸ hr' b rfl
    · exact (Option.some.inj hk') ▸ hl a rfl
    · cases hk'
  · have hcond : (ca.mergedInto.isSome || cb.mergedInto.isSome) = true := by
      cases hA : ca.mergedInto <;> cases hB : cb.mergedInto <;> simp_all
    exact hnone (by simp only [GraphClustering.tryMerge, hab, if_false, hca, hcb, hcond, if_true])

theorem Reach.mergeProgressively_step (hr : Reach f (initState isConstantLike f attrName) st)
    {cur : Option Nat}
    (hcur : ∀ k, cur = some k → k ∈ (initClusters isConstantLike f attrName).keys)
    (ps : List (Option Nat)) :
    ∃ st', GraphClustering.mergeProgressively f cur ps st = some st' ∧
      Reach f (initState isConstantLike f attrName) st' := by
  induction ps generalizing cur st with
  | nil => exact ⟨st, rfl, hr⟩
  | cons p ps ih =>
    obtain ⟨pre, st₁, e₁, hr₁, hpre⟩ := hr.getCluster_step hwf p
    have hk₁ := (hr₁.inv hwf).keys_eq
    obtain ⟨merged, st₂, e₂, hr₂, hm⟩ := hr₁.tryMerge_step hwf (l := pre) (r := cur)
      (fun k hk => let ⟨_, hc, _⟩ := hpre k hk; mem_keys_of_find hc) (fun k hk => hk₁ ▸ hcur k hk)
    have hk₂ := (hr₂.inv hwf).keys_eq
    have hcur' : ∀ k, merged.or cur = some k → k ∈ (initClusters isConstantLike f attrName).keys :=
      fun k hk => by
        cases merged with
        | none => exact hcur k hk
        | some k' => exact hk₂ ▸ hm k hk
    obtain ⟨st', e', hr'⟩ := ih hr₂ hcur'
    exact ⟨st', by simp only [GraphClustering.mergeProgressively, e₁, e₂, Option.bind_eq_bind,
      Option.some_bind, e'], hr'⟩

theorem Reach.mergeEach_step (hr : Reach f (initState isConstantLike f attrName) st)
    (pres : Operation → List (Option Nat)) (ops : List Operation) :
    ∃ st', mergeEach f pres ops st = some st' ∧
      Reach f (initState isConstantLike f attrName) st' := by
  induction ops generalizing st with
  | nil => exact ⟨st, rfl, hr⟩
  | cons op ops ih =>
    obtain ⟨cur, st₁, e₁, hr₁, hcur⟩ := hr.getCluster_step hwf (some op.name)
    have hcur' : ∀ k, cur = some k → k ∈ (initClusters isConstantLike f attrName).keys :=
      fun k hk => (hr₁.inv hwf).keys_eq ▸ let ⟨_, hc, _⟩ := hcur k hk; mem_keys_of_find hc
    obtain ⟨st₂, e₂, hr₂⟩ := hr₁.mergeProgressively_step hwf hcur' (pres op)
    obtain ⟨st', e', hr'⟩ := ih hr₂
    exact ⟨st', by simp only [mergeEach, e₁, e₂, Option.bind_eq_bind, Option.some_bind, e'], hr'⟩

/-- **The strategies are runs.** `mergeDeviceClustersProgressively` of either strategy
    returns, and every call it makes is a step of a run from the constructor's state. -/
theorem Reach.mergeDeviceClustersProgressively_step (algo : DirectedAlgo)
    (usesOf : Nat → List Nat) :
    ∃ st, mergeDeviceClustersProgressively algo usesOf f (initState isConstantLike f attrName) =
      some st ∧ Reach f (initState isConstantLike f attrName) st := by
  cases algo
  · exact Reach.init.mergeEach_step hwf _ _
  · exact Reach.init.mergeEach_step hwf _ _

/-- **The worklist loop of `populateCandidates`.** From a root `cluster` and a worklist of
    other roots, it returns a root `c'` (one of them), what is left of the worklist, and a
    state whose roots are `c'`, what is left, and the roots it did not touch. -/
theorem Reach.mergeWorklist_step (hr : Reach f (initState isConstantLike f attrName) st)
    {cluster : Nat} {rest : List Nat} (hc : IsRoot st.op2cluster cluster)
    (hrest : ∀ k ∈ rest, IsRoot st.op2cluster k) (hnd : (cluster :: rest).Nodup) :
    ∃ c' rest' st', mergeWorklist f cluster rest st = some (c', rest', st') ∧
      Reach f (initState isConstantLike f attrName) st' ∧ rest' <+ rest ∧
      c' ∈ cluster :: rest ∧ c' ∉ rest' ∧
      ∀ k, IsRoot st'.op2cluster k ↔
        k = c' ∨ k ∈ rest' ∨ (IsRoot st.op2cluster k ∧ k ∉ cluster :: rest) := by
  induction rest generalizing cluster st with
  | nil =>
    refine ⟨cluster, [], st, rfl, hr, Sublist.slnil, mem_cons_self _ _, not_mem_nil _,
      fun k => ⟨fun hk => ?_, ?_⟩⟩
    · by_cases hkc : k = cluster
      · exact Or.inl hkc
      · exact Or.inr (Or.inr ⟨hk, by simpa using hkc⟩)
    · rintro (rfl | h | ⟨hk, -⟩)
      exacts [hc, absurd h (not_mem_nil _), hk]
  | cons c rest ih =>
    simp only [nodup_cons, mem_cons, not_or] at hnd
    obtain ⟨⟨hcc, hcrest⟩, hcr, hrnd⟩ := hnd
    have hcroot := hrest c (mem_cons_self _ _)
    have hrest' : ∀ k ∈ rest, IsRoot st.op2cluster k := fun k hk => hrest k (mem_cons_of_mem _ hk)
    obtain ⟨res, st₁, e, hcases⟩ := (hr.inv hwf).tryMerge_roots hwf hcroot hc (Ne.symm hcc)
    have hr₁ := hr.merge e
    rcases hcases with ⟨rfl, hroots⟩ | ⟨rfl, hroots⟩ | ⟨rfl, hroots⟩
    · -- `c` merged into `cluster`
      obtain ⟨c', rest', st', e', hr', hsub, hmem, hnot, hroots'⟩ := ih hr₁ ((hroots _).2 ⟨hc, hcc⟩)
        (fun k hk => (hroots k).2 ⟨hrest' k hk, fun e => hcr (e ▸ hk)⟩)
        (nodup_cons.2 ⟨hcrest, hrnd⟩)
      refine ⟨c', rest', st', ?_, hr', hsub.cons _,
        ((sublist_cons_self c rest).cons₂ _).subset hmem, hnot,
        fun k => (hroots' k).trans (or_congr_right (or_congr_right ?_))⟩
      · simp only [mergeWorklist, e, Option.bind_eq_bind, Option.some_bind, e']
      · simp only [hroots, mem_cons, not_or, and_assoc, and_left_comm]
    · -- `cluster` merged into `c`
      obtain ⟨c', rest', st', e', hr', hsub, hmem, hnot, hroots'⟩ := ih hr₁
        ((hroots _).2 ⟨hcroot, Ne.symm hcc⟩)
        (fun k hk => (hroots k).2 ⟨hrest' k hk, fun e => hcrest (e ▸ hk)⟩)
        (nodup_cons.2 ⟨hcr, hrnd⟩)
      refine ⟨c', rest', st', ?_, hr', hsub.cons _, mem_cons_of_mem _ hmem, hnot,
        fun k => (hroots' k).trans (or_congr_right (or_congr_right ?_))⟩
      · simp only [mergeWorklist, e, Option.bind_eq_bind, Option.some_bind, e']
      · simp only [hroots, mem_cons, not_or, and_assoc]
    · -- no merge: `c` stays in the worklist
      obtain ⟨c', rest', st', e', hr', hsub, hmem, hnot, hroots'⟩ := ih hr₁ ((hroots _).2 hc)
        (fun k hk => (hroots k).2 (hrest' k hk)) (nodup_cons.2 ⟨hcrest, hrnd⟩)
      have hc'c : c' ≠ c := by
        rintro rfl
        simp only [mem_cons] at hmem
        exact hmem.elim (fun h => hcc h.symm) hcr
      refine ⟨c', c :: rest', st', ?_, hr', hsub.cons₂ _,
        ((sublist_cons_self c rest).cons₂ _).subset hmem, ?_, fun k => (hroots' k).trans ?_⟩
      · simp only [mergeWorklist, e, Option.bind_eq_bind, Option.some_bind, e']; rfl
      · simp only [mem_cons, not_or]; exact ⟨hc'c, hnot⟩
      · by_cases hkc : k = c
        · subst hkc; simp [hc'c.symm, hroots, hcroot, Ne.symm hcc, hcr]
        · simp only [hroots, mem_cons, not_or, hkc, false_or, not_false_eq_true, true_and]

/-- **The outer loop of `populateCandidates`.** With fuel for every worklist entry it
    returns; the candidates it appends are distinct roots, and the roots after it are the
    candidates and the roots that were neither candidates nor in the worklist. -/
theorem Reach.populateLoop_step (hr : Reach f (initState isConstantLike f attrName) st)
    {fuel : Nat} {wl cands : List Nat} (hfuel : wl.length ≤ fuel)
    (hwl : ∀ k ∈ wl, IsRoot st.op2cluster k) (hcands : ∀ k ∈ cands, IsRoot st.op2cluster k)
    (hnd : (cands ++ wl).Nodup) :
    ∃ cands' st', populateLoop f fuel wl st cands = some (cands', st') ∧
      Reach f (initState isConstantLike f attrName) st' ∧ cands'.Nodup ∧
      ∀ k, IsRoot st'.op2cluster k ↔ k ∈ cands' ∨ (IsRoot st.op2cluster k ∧ k ∉ cands ++ wl) := by
  induction fuel generalizing wl st cands with
  | zero =>
    obtain rfl : wl = [] := eq_nil_of_length_eq_zero (Nat.le_zero.1 hfuel)
    refine ⟨cands, st, rfl, hr, by simpa using hnd, fun k => ?_⟩
    simp only [append_nil]
    exact ⟨fun hk => (em (k ∈ cands)).imp_right fun h => ⟨hk, h⟩,
      fun h => h.elim (hcands k) And.left⟩
  | succ fuel ih =>
    cases wl with
    | nil =>
      refine ⟨cands, st, rfl, hr, by simpa using hnd, fun k => ?_⟩
      simp only [append_nil]
      exact ⟨fun hk => (em (k ∈ cands)).imp_right fun h => ⟨hk, h⟩,
        fun h => h.elim (hcands k) And.left⟩
    | cons c rest =>
      have hdisj := disjoint_of_nodup_append hnd
      have hnd' := hnd.of_append_right
      obtain ⟨c', rest', st₁, e, hr₁, hsub, hmem, hnot, hroots⟩ :=
        hr.mergeWorklist_step hwf (hwl c (mem_cons_self _ _))
          (fun k hk => hwl k (mem_cons_of_mem _ hk)) hnd'
      have hc' : c' ∉ cands := fun h => hdisj h hmem
      have hrest' : ∀ k ∈ rest', k ∉ cands := fun k hk h =>
        hdisj h (mem_cons_of_mem _ (hsub.subset hk))
      obtain ⟨cands', st', e', hr', hnd'', hroots'⟩ := ih hr₁
        (le_trans hsub.length_le (Nat.le_of_succ_le_succ hfuel))
        (fun k hk => (hroots k).2 (Or.inr (Or.inl hk)))
        (fun k hk => (hroots k).2 <| by
          rcases mem_append.1 hk with hk | hk
          · exact Or.inr (Or.inr ⟨hcands k hk, fun h => hdisj hk h⟩)
          · exact Or.inl (mem_singleton.1 hk))
        (by
          rw [append_assoc, singleton_append]
          exact nodup_append.2 ⟨hnd.of_append_left, nodup_cons.2 ⟨hnot, hnd'.sublist (hsub.cons c)⟩,
            fun k hk h => by
              rcases mem_cons.1 h with rfl | h
              exacts [hc' hk, hrest' k h hk]⟩)
      refine ⟨cands', st',
        by simp only [populateLoop, e, Option.bind_eq_bind, Option.some_bind, e'],
        hr', hnd'', fun k => (hroots' k).trans (or_congr_right ?_)⟩
      rw [hroots]
      simp only [mem_append, mem_singleton, not_or]
      constructor
      · rintro ⟨h | h | ⟨hR, hk⟩, ⟨hc, hne⟩, hr⟩
        exacts [absurd h hne, absurd h hr, ⟨hR, hc, hk⟩]
      · rintro ⟨hR, hc, hk⟩
        exact ⟨Or.inr (Or.inr ⟨hR, hk⟩), ⟨hc, fun h => hk (h ▸ hmem)⟩,
          fun h => hk (mem_cons_of_mem _ (hsub.subset h))⟩

end Steps

end GraphClustering
