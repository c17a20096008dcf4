/-
  `GraphClustingByDevice` with a directed strategy, from the strategy's run to the rewritten
  function.

  * `ClusterIO.Meets io f`: `getInputsOfCluster` and `getOutputsOfCluster` return what the
    pass asks of them; `clusterIOSpec_meets`: the helpers as the spec has them do;
  * `Inv.func_*`: the function a run leaves, its block in the run's order, has the ops of
    `f`, is well formed and computes what `f` computes;
  * `Reach.layout`: the metadata `getFunctionMetadatas` builds from roots of a run meet
    `Layout`, so `Layout.rewrite_spec`, `Rewritten.wellFormed`, `Layout.definesBeforeUse`
    and `Rewritten.runFunc_eq` apply to the pass;
  * `graphClustingByDevice_correct`: with `kTopDown`, `kBottomUp` or `kGreedy`, the pass
    fails only when there is no metadata; when it succeeds, the rewritten function and the
    created functions are well formed and, when `f` does, define every value before its
    first use, and the rewritten function, each call run as the body of the function it
    calls, returns what `f` returns.
-/
import GraphClustering.Scope

namespace GraphClustering

open List OpClusterMap

/-! ## `eraseDups` -/

section EraseDups

variable {β : Type} [BEq β] [LawfulBEq β]

theorem mem_eraseDups_loop {b : β} : ∀ as bs : List β, b ∈ eraseDups.loop as bs ↔ b ∈ as ∨ b ∈ bs
  | [], bs => by simp [eraseDups.loop]
  | a :: as, bs => by
    by_cases ha : a ∈ bs
    · simp only [eraseDups.loop, elem_eq_mem, decide_eq_true ha, mem_eraseDups_loop as bs, mem_cons]
      exact ⟨fun h => h.imp_left Or.inr,
        fun h => h.elim (·.elim (fun e => .inr (e ▸ ha)) .inl) .inr⟩
    · simp only [eraseDups.loop, elem_eq_mem, decide_eq_false ha, mem_eraseDups_loop as (a :: bs),
        mem_cons]
      rw [or_assoc, or_left_comm]

theorem nodup_eraseDups_loop :
    ∀ (as : List β) {bs : List β}, bs.Nodup → (eraseDups.loop as bs).Nodup
  | [], _, h => by simpa [eraseDups.loop] using h
  | a :: as, bs, h => by
    by_cases ha : a ∈ bs
    · simpa [eraseDups.loop, ha] using nodup_eraseDups_loop as h
    · simpa [eraseDups.loop, ha] using nodup_eraseDups_loop as (nodup_cons.2 ⟨ha, h⟩)

@[simp] theorem mem_eraseDups {b : β} {l : List β} : b ∈ l.eraseDups ↔ b ∈ l := by
  simp [eraseDups, mem_eraseDups_loop]

theorem nodup_eraseDups (l : List β) : l.eraseDups.Nodup := nodup_eraseDups_loop l nodup_nil

end EraseDups

/-! ## What the pass asks of the cluster helpers -/

/-- `v` is a result of an op of `ops` that an op outside `ops` (or an op nested in one)
    uses. -/
def IsOutput (f : Func) (ops : List Nat) (v : Value) : Prop :=
  (∃ n ∈ ops, v.getDefiningOp = some n) ∧ ∃ o ∈ f.ops, o.name ∉ ops ∧ v ∈ o.deepOperands

instance (f : Func) (ops : List Nat) (v : Value) : Decidable (IsOutput f ops v) :=
  inferInstanceAs (Decidable (_ ∧ _))

/-- How often `getOutputsOfCluster` returns an output `v`: `stats v` times when `stats` is
    given and counts `v`, once otherwise. -/
def outputCopies (stats : Option (Value → Nat)) (v : Value) : Nat :=
  match stats with
  | some s => max (s v) 1
  | none => 1

theorem outputCopies_pos (stats : Option (Value → Nat)) (v : Value) : 0 < outputCopies stats v := by
  cases stats <;> simp [outputCopies]

/-- What the pass asks of `getInputsOfCluster` and `getOutputsOfCluster` on the ops of `f`:
    the inputs of `ops` are the values the ops (or ops nested in them) use and none of them
    defines (in any order, repetitions allowed); the outputs of a duplicate-free `ops` are
    their results used outside them, each `outputCopies stats` times. -/
structure ClusterIO.Meets (io : ClusterIO) (f : Func) : Prop where
  inputs : ∀ ops v, v ∈ io.getInputsOfCluster ops ↔
    (∃ n ∈ ops, v ∈ (f.opOf n).deepOperands) ∧ ∀ n ∈ ops, (f.opOf n).defines v = false
  outputs : ∀ ops, ops.Nodup → ∀ stats v, (io.getOutputsOfCluster ops stats).count v =
    if IsOutput f ops v then outputCopies stats v else 0

theorem ClusterIO.Meets.mem_outputs {io : ClusterIO} {f : Func} (hio : io.Meets f)
    {ops : List Nat} (hnd : ops.Nodup) (stats : Option (Value → Nat)) (v : Value) :
    v ∈ io.getOutputsOfCluster ops stats ↔ IsOutput f ops v := by
  rw [← count_pos_iff, hio.outputs ops hnd]
  split <;> simp_all [outputCopies_pos]

/-- Handed `retStats`, `getOutputsOfCluster` returns an output as often as the terminator
    returns it. -/
theorem ClusterIO.Meets.count_retStats {io : ClusterIO} {f : Func} (hio : io.Meets f)
    {ops : List Nat} (hnd : ops.Nodup) {v : Value}
    (hv : v ∈ io.getOutputsOfCluster ops (some (retStats f)))
    (hvt : v ∈ f.terminator.operands) :
    (io.getOutputsOfCluster ops (some (retStats f))).count v = f.terminator.operands.count v := by
  rw [hio.outputs _ hnd, if_pos ((hio.mem_outputs hnd _ v).1 hv)]
  exact max_eq_left (count_pos_iff.2 hvt)

theorem count_flatMap_replicate {k : Value → Nat} {v : Value} :
    ∀ {l : List Value}, l.Nodup →
      (l.flatMap fun u => replicate (k u) u).count v = if v ∈ l then k v else 0
  | [], _ => rfl
  | u :: l, h => by
    rw [flatMap_cons, count_append, count_replicate, count_flatMap_replicate (nodup_cons.1 h).2]
    by_cases hv : v = u
    · subst hv; simp [(nodup_cons.1 h).1]
    · simp [hv, Ne.symm hv]

/-- The outputs of `clusterIOSpec`, counted: each result of `ns` that `O` holds, `k v`
    times. -/
theorem count_outputs {O : List Value} {k : Value → Nat} {v : Value} : ∀ {ns : List Nat}, ns.Nodup →
    (ns.flatMap fun n => ((O.filter (·.getDefiningOp == some n)).eraseDups).flatMap
      fun u => replicate (k u) u).count v =
      if (∃ n ∈ ns, v.getDefiningOp = some n) ∧ v ∈ O then k v else 0
  | [], _ => by simp
  | n :: ns, h => by
    rw [flatMap_cons, count_append, count_flatMap_replicate (nodup_eraseDups _),
      count_outputs (nodup_cons.1 h).2]
    by_cases hvn : v.getDefiningOp = some n
    · have hns : ¬∃ n' ∈ ns, v.getDefiningOp = some n' := fun ⟨n', hn', e⟩ =>
        (nodup_cons.1 h).1 (by rw [hvn, Option.some.injEq] at e; exact e ▸ hn')
      by_cases hvO : v ∈ O <;> simp [hvn, hvO, hns, (nodup_cons.1 h).1]
    · simp [hvn]

theorem defines_eq_false_iff {op : Operation} {v : Value} :
    op.defines v = false ↔ ∀ w ∈ op.walk, v.getDefiningOp ≠ some w.name := by
  simp [Operation.defines]

/-- **The helpers as the spec has them meet what the pass asks.** -/
theorem clusterIOSpec_meets (f : Func) : (clusterIOSpec f).Meets f where
  inputs ops v := by
    simp only [clusterIOSpec, mem_eraseDups, mem_filter, mem_flatMap, mem_map, defines_eq_false_iff]
    cases v with
    | arg i => simp [Value.getDefiningOp]
    | result c i =>
      simp only [Value.getDefiningOp, Option.all_some, decide_eq_true_eq, mem_flatMap, mem_map,
        Option.some.injEq, ne_eq]
      constructor
      · rintro ⟨⟨_, ⟨n, hn, rfl⟩, hv⟩, hnot⟩
        exact ⟨⟨n, hn, hv⟩, fun n hn w hw e => hnot ⟨w, ⟨_, ⟨n, hn, rfl⟩, hw⟩, e.symm⟩⟩
      · rintro ⟨⟨n, hn, hv⟩, hall⟩
        exact ⟨⟨_, ⟨n, hn, rfl⟩, hv⟩, fun ⟨w, ⟨_, ⟨n, hn, rfl⟩, hw⟩, e⟩ => hall n hn w hw e.symm⟩
  outputs ops hnd stats v := by
    simp only [clusterIOSpec]
    rw [count_outputs hnd]
    exact if_congr (by simp only [IsOutput, mem_flatMap, mem_filter, decide_eq_true_eq, and_assoc])
      rfl rfl

/-! ## The function a run leaves -/

section Run

variable {α : Type} {I : Interp α}

/-- Two well-formed functions whose bodies hold the same ops, in any order, and that return
    with the same terminator compute the same. -/
theorem WellFormed.runFunc_eq_of_perm [Inhabited α] {f g : Func} (hg : WellFormed g)
    (hf : WellFormed f) (hb : g.body ~ f.body) (ht : g.terminator = f.terminator)
    (args : List α) : runFunc (plainSem I) g args = runFunc (plainSem I) f args := by
  have hrun : evalBody (plainSem I) g.body (argEnv args) =
      evalBody (plainSem I) f.body (argEnv args) :=
    evalBody_eq_of_consistent (plainSem_readsOnly I _) (hg.ssaOrdered freeOperands_subset)
      hg.bodyNames_nodup (fun op hop i => hf.evalBody_consistent _ op (hb.subset hop) i)
      fun v hv => (evalBody_of_not_defined (fun ⟨d, hd, e⟩ =>
        hv ⟨d, (hb.map Operation.name).symm.subset hd, e⟩) _).symm
  rw [runFunc, runFunc, hrun, ht]

end Run

namespace Inv

variable {f : Func} {keys : List Nat} {st : ClusterState} (h : Inv f keys st)
include h

theorem func_ops (hwf : WellFormed f) : (st.func f).ops = st.block.map f.opOf := by
  conv_rhs => rw [← dropLast_append_getLast? _ h.last]
  rw [map_append, map_singleton,
    Func.opOf_eq_of_mem hwf.nodup (mem_append_right _ (mem_singleton_self _))]
  rfl

theorem func_names (hwf : WellFormed f) : (st.func f).names = st.block := by
  simp [Func.names, h.func_ops hwf, Function.comp_def]

theorem func_ops_perm (hwf : WellFormed f) : (st.func f).ops ~ f.ops := by
  have hf : f.names.map f.opOf = f.ops := by
    rw [Func.names, map_map]
    exact (map_congr_left fun o ho => Func.opOf_eq_of_mem hwf.nodup ho).trans (map_id _)
  rw [h.func_ops hwf, ← hf]
  exact h.perm.map _

theorem func_body_perm (hwf : WellFormed f) : (st.func f).body ~ f.body :=
  (perm_append_right_iff _).1 (h.func_ops_perm hwf)

theorem func_walk_perm (hwf : WellFormed f) : (st.func f).walk ~ f.walk := by
  simp only [Func.walk, Operation.walkList_eq_flatMap]
  exact (h.func_ops_perm hwf).flatMap_right _

theorem func_opOf (hwf : WellFormed f) {n : Nat} (hn : n ∈ st.block) :
    (st.func f).opOf n = f.opOf n := by
  have hmem := Func.opOf_mem (show n ∈ (st.func f).names by rw [h.func_names hwf]; exact hn)
  rw [h.func_ops hwf] at hmem
  obtain ⟨m, -, e⟩ := mem_map.1 hmem
  obtain rfl : m = n := by simpa using congrArg Operation.name e
  exact e.symm

/-- The function a run leaves is well formed. -/
theorem func_wellFormed (hwf : WellFormed f) : WellFormed (st.func f) where
  nodup := ((h.func_walk_perm hwf).map Operation.name).nodup_iff.2 hwf.nodup
  dep u d := by
    rw [h.func_names hwf]
    rintro ⟨v, hv, hd⟩ hu hd'
    rw [h.func_opOf hwf hu] at hv
    exact h.dep u d ⟨v, hv, hd⟩ hu hd'

theorem mem_func_body {n : Nat} (hn : n ∈ st.block) (ht : n ≠ f.terminator.name) :
    n ∈ (st.func f).body.map Operation.name := by
  have e := dropLast_append_getLast? _ h.last
  rw [← e, mem_append, mem_singleton] at hn
  simpa [ClusterState.func, Function.comp_def] using hn.resolve_right ht

end Inv

/-! ## The metadata meet `Layout` -/

/-- Every operand of `f`, nested ones included, is an argument or a result of an op of `f`
    (what the verifier of a `func.func` guarantees). -/
def OperandsDefined (f : Func) : Prop :=
  ∀ w ∈ f.walk, ∀ v ∈ w.operands, ∀ d ∈ v.getDefiningOp, d ∈ f.walk.map Operation.name

instance (f : Func) : Decidable (OperandsDefined f) :=
  inferInstanceAs (Decidable (∀ w ∈ f.walk, ∀ v ∈ w.operands, _))

theorem le_foldr_max : ∀ {l : List Nat} {n : Nat}, n ∈ l → n ≤ l.foldr max 0
  | a :: l, n, h => by
    rcases mem_cons.1 h with rfl | h
    · exact le_max_left _ _
    · exact (le_foldr_max h).trans (le_max_right _ _)

theorem lt_freshHandle {f : Func} {n : Nat} (h : n ∈ f.walk.map Operation.name) :
    n < freshHandle f :=
  Nat.lt_succ_of_le (le_foldr_max h)

/-- The entries `metadataLoop` builds: one for each candidate of a sublist of the
    candidates, each with a non-empty op list. -/
theorem metadataLoop_eq_map (io : ClusterIO) (device : String) (stats : Option (Value → Nat))
    (multi : Bool) (validate : Option (List Nat → Bool)) (m : OpClusterMap) :
    ∀ cands : List Nat, ∃ cs, cs <+ cands ∧ (∀ c ∈ cs, m.ops c ≠ []) ∧
      metadataLoop io device stats multi validate m cands = cs.map fun c =>
        ⟨device, m.ops c, io.getInputsOfCluster (m.ops c), io.getOutputsOfCluster (m.ops c) stats⟩
  | [] => ⟨[], Sublist.slnil, fun _ h => absurd h (not_mem_nil _), rfl⟩
  | c :: cands => by
    obtain ⟨cs, hs, hne, e⟩ := metadataLoop_eq_map io device stats multi validate m cands
    rw [metadataLoop]
    split
    · exact ⟨cs, hs.cons c, hne, e⟩
    · have hc : m.ops c ≠ [] := fun h' => ‹¬_› (Or.inl h')
      cases multi
      · exact ⟨[c], (nil_sublist _).cons₂ c, by simpa using hc, rfl⟩
      · refine ⟨c :: cs, hs.cons₂ c, forall_mem_cons.2 ⟨hc, hne⟩, ?_⟩
        rw [if_pos rfl, e]
        rfl

section Layout

variable {f : Func} {isConstantLike : Operation → Bool} {attrName : String} {st : ClusterState}
  {io : ClusterIO}

/-- **The metadata of roots of a run meet `Layout`.** For the function a run leaves and the
    handles above those of `f`, the entries `getFunctionMetadatas` builds from distinct roots
    are non-empty, disjoint, contiguous ranges of the body with the inputs and outputs the
    helpers return. -/
theorem Reach.layout (hwf : WellFormed f) (hdef : OperandsDefined f)
    (hret : f.terminator.regions = []) (hio : io.Meets f)
    (hr : Reach f (initState isConstantLike f attrName) st) {cands : List Nat}
    (hnd : cands.Nodup) (hc : ∀ k ∈ cands, IsRoot st.op2cluster k) (device : String)
    (dupOutputs multi : Bool) (validate : Option (List Nat → Bool)) :
    Layout (st.func f) (freshHandle f) dupOutputs (metadataLoop io device
      (if dupOutputs then some (retStats f) else none) multi validate st.op2cluster cands) := by
  have h := hr.inv hwf
  obtain ⟨cs, hs, hne, e⟩ := metadataLoop_eq_map io device
    (if dupOutputs then some (retStats f) else none) multi validate st.op2cluster cands
  have hroot : ∀ c ∈ cs, IsRoot st.op2cluster c := fun c hc' => hc c (hs.subset hc')
  have hopsnd : ∀ c ∈ cs, (st.op2cluster.ops c).Nodup := fun c hc' =>
    (h.nodup hwf).sublist (h.contig c (hroot c hc')).sublist
  have hopOf : ∀ c ∈ cs, ∀ n ∈ st.op2cluster.ops c, (st.func f).opOf n = f.opOf n :=
    fun c _ n hn => h.func_opOf hwf (h.mem_block_of_mem_ops hn)
  have hwalk := h.func_walk_perm hwf
  rw [e]
  refine ⟨h.func_wellFormed hwf, hret,
    fun w hw => lt_freshHandle (mem_map_of_mem _ (hwalk.subset hw)),
    fun w hw v hv c i hvc => lt_freshHandle (hdef w (hwalk.subset hw) v hv c (by rw [hvc]; rfl)),
    forall_mem_map.2 hne, forall_mem_map.2 fun c _ n hn => h.mem_func_body
      (h.mem_block_of_mem_ops hn) (h.keys_sub n (h.mem_keys_of_mem_ops hn)).2, ?_,
    forall_mem_map.2 fun c hc' => (h.func_names hwf).symm ▸ h.contig c (hroot c hc'),
    forall_mem_map.2 fun c hc' v => ?_, forall_mem_map.2 fun c hc' v => ?_,
    fun hdup => forall_mem_map.2 fun c hc' v hv hvt => ?_⟩
  · rw [pairwise_map]
    exact (hnd.sublist hs).imp_of_mem fun ha hb hab _ hx hx' =>
      h.not_mem_ops_of_ne (hroot _ ha) (hroot _ hb) hab hx hx'
  · rw [hio.inputs]
    exact and_congr (exists_congr fun n => and_congr_right fun hn => by rw [hopOf c hc' n hn])
      (forall₂_congr fun n hn => by rw [hopOf c hc' n hn])
  · rw [hio.mem_outputs (hopsnd c hc')]
    exact and_congr_right fun _ => exists_congr fun o => and_congr_left fun _ =>
      ((h.func_ops_perm hwf).mem_iff).symm
  · simp only [hdup, if_true] at hv ⊢
    exact hio.count_retStats (hopsnd c hc') hv hvt

/-- A directed strategy's run on an iteration order of `op2cluster`: the metadata
    `getFunctionMetadatas` builds from the roots of a state of a run, each once, and the
    function with that state's block. -/
theorem runDirected_eq (hwf : WellFormed f) (io : ClusterIO) (a : DirectedAlgo)
    (usesOf : Nat → List Nat) {order : List Nat} (horder : order ~ (initClusters isConstantLike f attrName).keys)
    (device : String) (dupOutputs multi : Bool) (validate : Option (List Nat → Bool)) :
    ∃ cands st, Reach f (initState isConstantLike f attrName) st ∧ cands.Nodup ∧
      (∀ k, k ∈ cands ↔ IsRoot st.op2cluster k) ∧
      runDirected io a isConstantLike usesOf f attrName device dupOutputs multi validate order =
        some (getFunctionMetadatas io f st cands device dupOutputs multi validate, st.func f) := by
  obtain ⟨st₀, e₀, hr₀⟩ :=
    @Reach.mergeDeviceClustersProgressively_step f isConstantLike attrName hwf a usesOf
  obtain ⟨cands, st, e, hr, hnd, hc, -⟩ := hr₀.populateCandidates_step hwf horder
  refine ⟨cands, st, hr, hnd, hc, ?_⟩
  simp only [runDirected, deviceClusteringAlgo, e₀, e, Option.bind_eq_bind, Option.some_bind]
  rfl

/-- **A directed strategy leaves metadata that meet `Layout`.** When `runDirected` returns
    metadata, they meet `Layout` for the function it returns, whose body holds the ops of
    `f` in another order. -/
theorem runDirected_layout (hwf : WellFormed f) (hdef : OperandsDefined f)
    (hret : f.terminator.regions = []) (hio : io.Meets f) (a : DirectedAlgo)
    (usesOf : Nat → List Nat) {order : List Nat}
    (horder : order ~ (initClusters isConstantLike f attrName).keys) {device : String}
    {dupOutputs multi : Bool} {validate : Option (List Nat → Bool)}
    {mds : List FunctionMetadata} {g₀ : Func}
    (hrun : runDirected io a isConstantLike usesOf f attrName device dupOutputs multi validate
      order = some (some mds, g₀)) :
    Layout g₀ (freshHandle f) dupOutputs mds ∧ g₀.body ~ f.body ∧ g₀.terminator = f.terminator := by
  obtain ⟨cands, st, hr, hnd, hc, hrun'⟩ :=
    runDirected_eq hwf io a usesOf horder device dupOutputs multi validate
  rw [hrun'] at hrun
  obtain ⟨hmds, rfl⟩ := Prod.mk.inj (Option.some.inj hrun)
  refine ⟨?_, (hr.inv hwf).func_body_perm hwf, rfl⟩
  cases cands with
  | nil => cases hmds
  | cons c cs =>
    simp only [getFunctionMetadatas] at hmds
    split at hmds
    · cases hmds
    · cases hmds
      exact hr.layout hwf hdef hret hio hnd (fun k hk => (hc k).1 hk) device dupOutputs multi
        validate

end Layout

/-! ## The pass -/

section Pass

variable {io : ClusterIO} {algo : GraphClusteringAlgo} {isConstantLike : Operation → Bool}
  {usesOf : Nat → List Nat} {f : Func} {attrName device : String} {dupOutputs multi : Bool}
  {validate : Option (List Nat → Bool)} {order orderTD orderBU : List Nat}

/-- Every strategy but the fallback takes its metadata from a run of a directed strategy on
    `order`: `kGreedy` measures both on `orderTD` and `orderBU`, then runs the winner. -/
theorem getMetadatas_directed (halgo : algo ≠ .fallback) {mds : List FunctionMetadata} {g₀ : Func}
    (h : getMetadatas io algo isConstantLike usesOf f attrName device dupOutputs multi validate
      order orderTD orderBU = some (some mds, g₀)) :
    ∃ a, runDirected io a isConstantLike usesOf f attrName device dupOutputs multi validate
      order = some (some mds, g₀) := by
  cases algo with
  | topDown => exact ⟨.topDown, h⟩
  | bottomUp => exact ⟨.bottomUp, h⟩
  | fallback => exact absurd rfl halgo
  | greedy =>
    simp only [getMetadatas, Option.bind_eq_bind, Option.bind_eq_some, Prod.exists] at h
    obtain ⟨td, -, -, bu, -, -, h⟩ := h
    rcases td with _ | t <;> rcases bu with _ | b
    · cases h
    · exact ⟨.bottomUp, h⟩
    · exact ⟨.topDown, h⟩
    · by_cases hc : coveredOps t > coveredOps b
      · exact ⟨.topDown, by simpa only [hc, if_true] using h⟩
      · exact ⟨.bottomUp, by simpa only [hc, if_false] using h⟩

/-- What a successful run of the pass did: metadata, then the calls, then the erase loop. -/
theorem graphClustingByDevice_eq_some {fns : List Func} {g : Func}
    (h : graphClustingByDevice io algo isConstantLike usesOf f attrName device dupOutputs multi
      validate order orderTD orderBU = some (fns, g)) :
    ∃ mds g₀ g₁, getMetadatas io algo isConstantLike usesOf f attrName device dupOutputs multi
        validate order orderTD orderBU = some (some mds, g₀) ∧
      createCalls (freshHandle f + 1) mds g₀ dupOutputs = some g₁ ∧ eraseOps mds g₁ = some g ∧
      fns = createFunctions g₀ (freshHandle f) mds := by
  simp only [graphClustingByDevice, Option.bind_eq_bind, Option.bind_eq_some] at h
  obtain ⟨⟨mdo, g₀⟩, hget, mds, rfl, g₁, h₁, g₂, h₂, h⟩ := h
  obtain ⟨rfl, rfl⟩ := Prod.mk.inj (Option.some.inj h)
  exact ⟨mds, g₀, g₁, hget, h₁, h₂, rfl⟩

/-- **`GraphClustingByDevice` with `kTopDown`, `kBottomUp` or `kGreedy` is correct.** For a
    well-formed function whose operands are all defined, whose terminator has no regions,
    and cluster helpers that return what the pass asks of them, and for every iteration order
    of `op2cluster` (any orders for the two measuring runs of `kGreedy`):
    once there is metadata, `createCalls` succeeds, the erase loop erases no op that still
    has a use, and the pass returns; and whatever it returns, the rewritten function and each
    created function are well formed, define every value before its first use when `f` does,
    and for every interpretation of the ops that gives an op and its copy with renamed free
    operands the same results, the rewritten function, each call run as the body of the
    function it calls, returns what `f` returns on every argument list. -/
theorem graphClustingByDevice_correct (hwf : WellFormed f) (hdef : OperandsDefined f)
    (hret : f.terminator.regions = []) (hio : io.Meets f) (halgo : algo ≠ .fallback)
    (horder : order ~ (initClusters isConstantLike f attrName).keys) :
    (∀ mds g₀, getMetadatas io algo isConstantLike usesOf f attrName device dupOutputs multi
        validate order orderTD orderBU = some (some mds, g₀) →
      ∃ g₁ g, createCalls (freshHandle f + 1) mds g₀ dupOutputs = some g₁ ∧
        eraseOps mds g₁ = some g ∧
        graphClustingByDevice io algo isConstantLike usesOf f attrName device dupOutputs multi
          validate order orderTD orderBU = some (createFunctions g₀ (freshHandle f) mds, g)) ∧
    ∀ fns g, graphClustingByDevice io algo isConstantLike usesOf f attrName device dupOutputs
        multi validate order orderTD orderBU = some (fns, g) →
      WellFormed g ∧ (∀ fn ∈ fns, WellFormed fn) ∧
      (f.DefinesBeforeUse → g.DefinesBeforeUse ∧ ∀ fn ∈ fns, fn.DefinesBeforeUse) ∧
      ∀ (α : Type) [Inhabited α] (I : Interp α), RespectsRenaming I → ∀ args : List α,
        runFunc (callSem I (freshHandle f + 1) fns) g args = runFunc (plainSem I) f args := by
  refine ⟨fun mds g₀ hget => ?_, fun fns g h => ?_⟩
  · obtain ⟨a, hrun⟩ := getMetadatas_directed halgo hget
    obtain ⟨g₁, g₂, h₁, h₂, -⟩ :=
      (runDirected_layout hwf hdef hret hio a usesOf horder hrun).1.rewrite_spec
    refine ⟨g₁, g₂, h₁, h₂, ?_⟩
    simp only [graphClustingByDevice, hget, h₁, h₂, Option.bind_eq_bind, Option.some_bind]
    rfl
  · obtain ⟨mds, g₀, g₁, hget, h₁, h₂, rfl⟩ := graphClustingByDevice_eq_some h
    obtain ⟨a, hrun⟩ := getMetadatas_directed halgo hget
    obtain ⟨hl, hbody, hterm⟩ := runDirected_layout hwf hdef hret hio a usesOf horder hrun
    obtain ⟨g₁', g₂, h₁', h₂', hr⟩ := hl.rewrite_spec
    obtain rfl : g₁' = g₁ := Option.some.inj (h₁'.symm.trans h₁)
    obtain rfl : g₂ = g := Option.some.inj (h₂'.symm.trans h₂)
    refine ⟨hr.wellFormed hl, forall_mem_map.2 fun _ hmd => hl.wellFormed_createFunction hmd,
      fun hd => hl.definesBeforeUse hr (hd.toScoped.of_perm hbody hterm), fun α _ I hI args => ?_⟩
    rw [hr.runFunc_eq hl args hI]
    exact hl.wf.runFunc_eq_of_perm hwf hbody hterm args

end Pass

/-- The pass on `sampleFunc` with `kTopDown`, the helpers as the spec has them and every
    option but `enableMultiGraph` off. -/
theorem sampleFunc_pass_correct :
    WellFormed sampleFunc ∧ OperandsDefined sampleFunc ∧ sampleFunc.DefinesBeforeUse ∧
    sampleFunc.terminator.regions = [] ∧
    (clusterIOSpec sampleFunc).Meets sampleFunc ∧ GraphClusteringAlgo.topDown ≠ .fallback ∧
    [0, 2] ~ (initClusters (fun _ => false) sampleFunc "device").keys ∧
    (∀ mds g₀, getMetadatas (clusterIOSpec sampleFunc) .topDown (fun _ => false) (fun _ => [])
        sampleFunc "device" "cuda" false true none [0, 2] [] [] = some (some mds, g₀) →
      ∃ g₁ g, createCalls (freshHandle sampleFunc + 1) mds g₀ false = some g₁ ∧
        eraseOps mds g₁ = some g ∧
        graphClustingByDevice (clusterIOSpec sampleFunc) .topDown (fun _ => false) (fun _ => [])
          sampleFunc "device" "cuda" false true none [0, 2] [] [] =
          some (createFunctions g₀ (freshHandle sampleFunc) mds, g)) ∧
    ∀ fns g, graphClustingByDevice (clusterIOSpec sampleFunc) .topDown (fun _ => false)
        (fun _ => []) sampleFunc "device" "cuda" false true none [0, 2] [] [] = some (fns, g) →
      WellFormed g ∧ (∀ fn ∈ fns, WellFormed fn) ∧
      (sampleFunc.DefinesBeforeUse → g.DefinesBeforeUse ∧ ∀ fn ∈ fns, fn.DefinesBeforeUse) ∧
      ∀ (α : Type) [Inhabited α] (I : Interp α), RespectsRenaming I → ∀ args : List α,
        runFunc (callSem I (freshHandle sampleFunc + 1) fns) g args =
          runFunc (plainSem I) sampleFunc args :=
  ⟨by decide, by decide, by decide, rfl, clusterIOSpec_meets sampleFunc, by decide, by decide,
    graphClustingByDevice_correct (by decide) (by decide) rfl (clusterIOSpec_meets sampleFunc)
      (by decide) (by decide)⟩

/-- On `sampleFunc` the pass returns one function with `a`, `b` and a return (handle 4) of
    their outputs, and the block `[call5, h(call5#0), return(h, call5#1)]`. -/
example : (graphClustingByDevice (clusterIOSpec sampleFunc) .topDown (fun _ => false)
    (fun _ => []) sampleFunc "device" "cuda" false true none [0, 2] [] []).map
      (fun p => (p.1.map fun fn => fn.ops.map (fun o => (o.name, o.operands)),
        p.2.ops.map fun o => (o.name, o.operands))) =
    some ([[(0, []), (2, [.result 0 0]), (4, [.result 0 0, .result 2 0])]],
      [(5, []), (1, [.result 5 0]), (3, [.result 1 0, .result 5 1])]) := by decide

/-- A block whose host op `h` (handle 1) uses the result of the op (10) nested in `a` (0);
    `b` (2) uses `a`, and the terminator (3) returns `h` and `b`. It is well formed and every
    operand is defined, but `h` uses a value defined inside `a`, which the verifier of MLIR
    rejects. -/
def nestedUseFunc : Func :=
  ⟨"main", [.mk 0 [] [] [.mk 10 [] [] []], .mk 1 [.result 10 0] [("device", "host")] [],
    .mk 2 [.result 0 0] [] []], .mk 3 [.result 1 0, .result 2 0] [] []⟩

/-- On `nestedUseFunc` the pass moves `h` above `a`, erases `a` and `b`, and leaves `h` with
    an operand no op defines: without `DefinesBeforeUse` of `f`, the rewritten function need
    not define its values. -/
example : WellFormed nestedUseFunc ∧ OperandsDefined nestedUseFunc ∧
    ¬nestedUseFunc.DefinesBeforeUse ∧
    (graphClustingByDevice (clusterIOSpec nestedUseFunc) .topDown (fun _ => false)
      (fun _ => []) nestedUseFunc "device" "cuda" false true none [0, 2] [] []).map
      (fun p => decide (OperandsDefined p.2)) = some false := by decide

end GraphClustering
