/-
  What `GraphClustingByDevice` returns with a directed strategy, beyond the correctness of
  what it returns.

  * `Reach.func_correct`: every state of a clustering run, its block read as a function, is
    well formed and computes what `f` computes: the merges only reorder the block;
  * `runDirected_outcome`: a run of a directed strategy has metadata exactly when
    `op2cluster` has a key, and with `enableMultiGraph` and no `validateSubGraphFn` they
    cover every key (`coveredOps`);
  * `Layout.rewrite_correct`: the calls and the erase loop on metadata that meet `Layout`
    leave well-formed functions, which define every value before its first use when the
    function they rewrite scopes its values, and compute what that function computes;
  * `graphClustingByDevice_eq_none_iff`: with `kTopDown`, `kBottomUp` or `kGreedy` the pass
    fails exactly when no op of the body gets a cluster, whatever `validateSubGraphFn`
    rejects;
  * `graphClustingByDevice_rewritten`: what a successful pass leaves, one call per entry
    and the ops outside the entries;
  * `greedy_eq_bottomUp`: with `enableMultiGraph` and no `validateSubGraphFn`, the two
    measuring runs of `kGreedy` cover as many ops, so `kGreedy` is `kBottomUp`.
-/
import GraphClustering.ReturnPositions

namespace GraphClustering

open List OpClusterMap

variable {f : Func} {isConstantLike : Operation → Bool} {attrName : String} {st : ClusterState}

/-! ## Every state of a run -/

/-- **Every state of a clustering run computes what `f` computes.** From the constructor's
    state, every sequence of `getRoot` and `tryMerge` calls leaves a block that, read as the
    function, is well formed and returns what `f` returns on every argument list, for every
    interpretation of the ops. -/
theorem Reach.func_correct (hwf : WellFormed f)
    (hr : Reach f (initState isConstantLike f attrName) st) :
    WellFormed (st.func f) ∧ ∀ (α : Type) [Inhabited α] (I : Interp α) (args : List α),
      runFunc (plainSem I) (st.func f) args = runFunc (plainSem I) f args := by
  have h := hr.inv hwf
  exact ⟨h.func_wellFormed hwf, fun _ _ _ args =>
    (h.func_wellFormed hwf).runFunc_eq_of_perm hwf (h.func_body_perm hwf) rfl args⟩

/-- After the merge of `a` into `b` on `sampleFunc`, the block `[a, b, h, return]` computes
    what `sampleFunc` computes. -/
theorem sampleMerged_func_correct :
    WellFormed sampleFunc ∧
    Reach sampleFunc (initState (fun _ => false) sampleFunc "device") sampleMerged ∧
    WellFormed (sampleMerged.func sampleFunc) ∧
    ∀ (α : Type) [Inhabited α] (I : Interp α) (args : List α),
      runFunc (plainSem I) (sampleMerged.func sampleFunc) args =
        runFunc (plainSem I) sampleFunc args :=
  have hr := Reach.merge sampleFunc_start sampleFunc_merge
  ⟨by decide, hr, Reach.func_correct (by decide) hr⟩

/-! ## The runs of the directed strategies -/

/-- `coveredOps`, the `std::accumulate` of `kGreedy`, counts the ops of all entries. -/
theorem coveredOps_eq (mds : List FunctionMetadata) :
    coveredOps mds = (mds.flatMap FunctionMetadata.ops).length := by
  suffices ∀ n, mds.foldl (fun val md => val + md.ops.length) n =
      n + (mds.flatMap FunctionMetadata.ops).length from (this 0).trans (Nat.zero_add _)
  induction mds with
  | nil => simp
  | cons md mds ih => intro n; rw [foldl_cons, ih, flatMap_cons, length_append, Nat.add_assoc]

/-- **A run of a directed strategy.** On an iteration order of `op2cluster`, it returns, with
    metadata exactly when `op2cluster` has a key; with `enableMultiGraph` and no
    `validateSubGraphFn`, the metadata cover as many ops as there are keys. -/
theorem runDirected_outcome (hwf : WellFormed f) (io : ClusterIO) (a : DirectedAlgo)
    (usesOf : Nat → List Nat) {order : List Nat}
    (horder : order ~ (initClusters isConstantLike f attrName).keys) (device : String)
    (dupOutputs multi : Bool) (validate : Option (List Nat → Bool)) :
    ∃ mdo g, runDirected io a isConstantLike usesOf f attrName device dupOutputs multi validate
        order = some (mdo, g) ∧
      (mdo = none ↔ (initClusters isConstantLike f attrName).keys = []) ∧
      (multi = true → validate = none → ∀ mds, mdo = some mds →
        coveredOps mds = (initClusters isConstantLike f attrName).keys.length) := by
  obtain ⟨cands, st, hr, hnd, hc, e⟩ :=
    runDirected_eq hwf io a usesOf horder device dupOutputs multi validate
  have h := hr.inv hwf
  refine ⟨_, _, e, ?_, ?_⟩
  · cases cands with
    | nil =>
      -- no candidate: every key would have a root among them
      refine iff_of_true rfl (eq_nil_iff_forall_not_mem.2 fun k hk => ?_)
      obtain ⟨r, _, hn⟩ := h.rooted k hk
      exact not_mem_nil r ((hc r).2 hn.isRoot)
    | cons c cs =>
      -- the first candidate is a root, so it is a key and its op list is not empty
      have hcr := (hc c).1 (mem_cons_self _ _)
      refine iff_of_false (by simp [getFunctionMetadatas, h.ops_ne_nil hcr]) ?_
      exact ne_nil_of_mem (h.mem_keys_of_mem_ops (h.mem_ops c c hcr.root))
  · rintro rfl rfl mds hmds
    cases cands with
    | nil => cases hmds
    | cons c cs =>
      have hne : ∀ k ∈ c :: cs, st.op2cluster.ops k ≠ [] := fun k hk => h.ops_ne_nil ((hc k).1 hk)
      simp only [getFunctionMetadatas, hne c (mem_cons_self _ _), if_false,
        Option.some.injEq] at hmds
      subst hmds
      rw [coveredOps_eq, metadataLoop_flatMap hne]
      exact (h.flatMap_ops_perm hwf (initClusters_keys_nodup hwf isConstantLike attrName) hnd
        hc).length_eq

/-! ## The rewrite on a layout -/

section Rewrite

variable {g₀ g₁ g : Func} {retName : Nat} {dupOutputs : Bool} {mds : List FunctionMetadata}

/-- On metadata that meet `Layout` for `g₀`, what `createCalls` and the erase loop return is
    `Rewritten`. -/
theorem Layout.rewritten_of_eq (hl : Layout g₀ retName dupOutputs mds)
    (h₁ : createCalls (retName + 1) mds g₀ dupOutputs = some g₁) (h₂ : eraseOps mds g₁ = some g) :
    Rewritten g₀ retName mds g := by
  obtain ⟨g₁', g₂, h₁', h₂', hr⟩ := hl.rewrite_spec
  obtain rfl : g₁' = g₁ := Option.some.inj (h₁'.symm.trans h₁)
  obtain rfl : g₂ = g := Option.some.inj (h₂'.symm.trans h₂)
  exact hr

/-- **The calls and the erase loop on a layout.** On metadata that meet `Layout` for `g₀`,
    whatever `createCalls` and the erase loop return is well formed, as is each created
    function; both define every value before its first use when `g₀` scopes its values; and
    the rewritten function computes what `g₀` computes. -/
theorem Layout.rewrite_correct (hl : Layout g₀ retName dupOutputs mds)
    (h₁ : createCalls (retName + 1) mds g₀ dupOutputs = some g₁) (h₂ : eraseOps mds g₁ = some g) :
    WellFormed g ∧ (∀ fn ∈ createFunctions g₀ retName mds, WellFormed fn) ∧
      (g₀.Scoped →
        g.DefinesBeforeUse ∧ ∀ fn ∈ createFunctions g₀ retName mds, fn.DefinesBeforeUse) ∧
      ∀ (α : Type) [Inhabited α] (I : Interp α), RespectsRenaming I → ∀ args : List α,
        runFunc (callSem I (retName + 1) (createFunctions g₀ retName mds)) g args =
          runFunc (plainSem I) g₀ args :=
  have hr := hl.rewritten_of_eq h₁ h₂
  ⟨hr.wellFormed hl, forall_mem_map.2 fun _ hmd => hl.wellFormed_createFunction hmd,
    hl.definesBeforeUse hr, fun _ _ _ hI args => hr.runFunc_eq hl args hI⟩

end Rewrite

section Pass

variable {io : ClusterIO} {algo : GraphClusteringAlgo} {usesOf : Nat → List Nat}
  {device : String} {dupOutputs multi : Bool} {validate : Option (List Nat → Bool)}
  {order orderTD orderBU : List Nat}

/-- The metadata of `kTopDown`, `kBottomUp` and `kGreedy`: `none` exactly when
    `op2cluster` has no key (then `kGreedy` leaves the function as it is). -/
theorem getMetadatas_outcome (hwf : WellFormed f) (halgo : algo ≠ .fallback)
    (horder : order ~ (initClusters isConstantLike f attrName).keys)
    (hTD : orderTD ~ (initClusters isConstantLike f attrName).keys)
    (hBU : orderBU ~ (initClusters isConstantLike f attrName).keys) :
    ∃ mdo g, getMetadatas io algo isConstantLike usesOf f attrName device dupOutputs multi
        validate order orderTD orderBU = some (mdo, g) ∧
      (mdo = none ↔ (initClusters isConstantLike f attrName).keys = []) := by
  -- the run on `order`: that of `kTopDown`, of `kBottomUp`, and of the winner of `kGreedy`
  have final : ∀ a, ∃ mdo g, runDirected io a isConstantLike usesOf f attrName device
      dupOutputs multi validate order = some (mdo, g) ∧
      (mdo = none ↔ (initClusters isConstantLike f attrName).keys = []) := fun a =>
    let ⟨mdo, g, e, hiff, _⟩ :=
      runDirected_outcome hwf io a usesOf horder device dupOutputs multi validate
    ⟨mdo, g, e, hiff⟩
  cases algo with
  | topDown => exact final .topDown
  | bottomUp => exact final .bottomUp
  | fallback => exact absurd rfl halgo
  | greedy =>
    -- the measuring runs on the clones
    obtain ⟨td, gT, eT, hT, -⟩ :=
      runDirected_outcome hwf io .topDown usesOf hTD device dupOutputs multi validate
    obtain ⟨bu, gB, eB, hB, -⟩ :=
      runDirected_outcome hwf io .bottomUp usesOf hBU device dupOutputs multi validate
    simp only [getMetadatas, eT, eB, Option.bind_eq_bind, Option.some_bind]
    by_cases hk : (initClusters isConstantLike f attrName).keys = []
    · rw [hT.2 hk, hB.2 hk]
      exact ⟨none, f, rfl, iff_of_true rfl hk⟩
    · obtain ⟨t, rfl⟩ := Option.ne_none_iff_exists'.1 (mt hT.1 hk)
      obtain ⟨b, rfl⟩ := Option.ne_none_iff_exists'.1 (mt hB.1 hk)
      dsimp only
      split
      exacts [final .topDown, final .bottomUp]

/-- The keys of the constructor's map: none exactly when every op of the body is a host op
    or a constant-like op whose one use is by a host op. -/
theorem initClusters_keys_eq_nil_iff :
    (initClusters isConstantLike f attrName).keys = [] ↔ ∀ op ∈ f.body,
      op.isHostOp attrName = true ∨
        (isConstantLike op = true ∧ usedOnlyByHost f attrName op = true) := by
  simp only [eq_nil_iff_forall_not_mem, mem_keys_initClusters, ← usedOnlyByHost_iff]
  constructor
  · intro h op hop
    by_contra hn
    obtain ⟨hh, hc⟩ := not_or.1 hn
    exact h op.name ⟨op, hop, rfl, Bool.eq_false_iff.2 hh, hc⟩
  · rintro h k ⟨op, hop, rfl, hh, hc⟩
    rcases h op hop with h | h
    · exact absurd (hh ▸ h) Bool.false_ne_true
    · exact hc h

/-- **When the directed pass fails.** For a well-formed function whose operands are all
    defined, whose terminator has no regions, and cluster helpers that return what the pass
    asks of them, `GraphClustingByDevice` with `kTopDown`, `kBottomUp` or `kGreedy` fails
    exactly when every op of the body is a host op or a constant-like op whose one use is by
    a host op: then `op2cluster` is empty and `getFunctionMetadatas` returns `nullopt`.
    Otherwise it succeeds, for every `dupOutputs`, `enableMultiGraph` and
    `validateSubGraphFn` (when it rejects every candidate, with no created function). -/
theorem graphClustingByDevice_eq_none_iff (hwf : WellFormed f) (hdef : OperandsDefined f)
    (hret : f.terminator.regions = []) (hio : io.Meets f) (halgo : algo ≠ .fallback)
    (horder : order ~ (initClusters isConstantLike f attrName).keys)
    (hTD : orderTD ~ (initClusters isConstantLike f attrName).keys)
    (hBU : orderBU ~ (initClusters isConstantLike f attrName).keys) :
    graphClustingByDevice io algo isConstantLike usesOf f attrName device dupOutputs multi
        validate order orderTD orderBU = none ↔
      ∀ op ∈ f.body, op.isHostOp attrName = true ∨
        (isConstantLike op = true ∧ usedOnlyByHost f attrName op = true) := by
  obtain ⟨mdo, g₀, hget, hiff⟩ : ∃ mdo g, getMetadatas io algo isConstantLike usesOf f attrName
      device dupOutputs multi validate order orderTD orderBU = some (mdo, g) ∧
      (mdo = none ↔ (initClusters isConstantLike f attrName).keys = []) :=
    getMetadatas_outcome hwf halgo horder hTD hBU
  rw [← initClusters_keys_eq_nil_iff, ← hiff]
  cases mdo with
  | none => simp [graphClustingByDevice, hget]
  | some mds =>
    -- with metadata, the calls and the erase loop return
    obtain ⟨a, hrun⟩ := getMetadatas_directed halgo hget
    obtain ⟨g₁, g₂, h₁, h₂, -⟩ :=
      (runDirected_layout hwf hdef hret hio a usesOf horder hrun).1.rewrite_spec
    simp [graphClustingByDevice, hget, h₁, h₂]

/-- A function whose only op is a host op: `op2cluster` is empty. -/
def hostOnlyFunc : Func :=
  ⟨"main", [.mk 0 [] [("device", "host")] []], .mk 1 [.result 0 0] [] []⟩

/-- The pass with `kTopDown` fails on `hostOnlyFunc`. On `sampleFunc`, whose ops `a` and `b`
    get clusters, it succeeds even with a `validateSubGraphFn` that rejects every candidate,
    and then creates no function. -/
theorem hostOnlyFunc_fails_sampleFunc_succeeds :
    graphClustingByDevice (clusterIOSpec hostOnlyFunc) .topDown (fun _ => false) (fun _ => [])
      hostOnlyFunc "device" "cuda" false true none [] [] [] = none ∧
    graphClustingByDevice (clusterIOSpec sampleFunc) .topDown (fun _ => false) (fun _ => [])
      sampleFunc "device" "cuda" false true (some fun _ => false) [0, 2] [0, 2] [0, 2] ≠ none ∧
    (graphClustingByDevice (clusterIOSpec sampleFunc) .topDown (fun _ => false) (fun _ => [])
      sampleFunc "device" "cuda" false true (some fun _ => false) [0, 2] [0, 2] [0, 2]).map
      (·.1.length) = some 0 :=
  ⟨(graphClustingByDevice_eq_none_iff (by decide) (by decide) (by rfl) (clusterIOSpec_meets _)
    (by decide) (by decide) (by decide) (by decide)).2 (by decide),
    mt (graphClustingByDevice_eq_none_iff (by decide) (by decide) (by rfl)
      (clusterIOSpec_meets _) (by decide) (by decide) (by decide) (by decide)).1 (by decide),
    by decide⟩

/-- **What the directed pass leaves.** When `GraphClustingByDevice` with `kTopDown`,
    `kBottomUp` or `kGreedy` returns, its metadata meet `Layout` for the function `g₀` with
    the ops of `f` in the strategy's order (non-empty, disjoint, contiguous entries), the
    created functions are those `createFunctions` builds from them, and the rewritten
    function is `Rewritten`: one call per entry, right before the entry's last op, and the
    ops of no entry with the entries' outputs replaced; every op of an entry is erased. -/
theorem graphClustingByDevice_rewritten (hwf : WellFormed f) (hdef : OperandsDefined f)
    (hret : f.terminator.regions = []) (hio : io.Meets f) (halgo : algo ≠ .fallback)
    (horder : order ~ (initClusters isConstantLike f attrName).keys) {fns : List Func} {g : Func}
    (h : graphClustingByDevice io algo isConstantLike usesOf f attrName device dupOutputs multi
      validate order orderTD orderBU = some (fns, g)) :
    ∃ mds g₀, getMetadatas io algo isConstantLike usesOf f attrName device dupOutputs multi
        validate order orderTD orderBU = some (some mds, g₀) ∧
      g₀.body ~ f.body ∧ g₀.terminator = f.terminator ∧ Layout g₀ (freshHandle f) dupOutputs mds ∧
      fns = createFunctions g₀ (freshHandle f) mds ∧ Rewritten g₀ (freshHandle f) mds g := by
  obtain ⟨mds, g₀, g₁, hget, h₁, h₂, rfl⟩ := graphClustingByDevice_eq_some h
  obtain ⟨a, hrun⟩ := getMetadatas_directed halgo hget
  obtain ⟨hl, hbody, hterm⟩ := runDirected_layout hwf hdef hret hio a usesOf horder hrun
  exact ⟨mds, g₀, hget, hbody, hterm, hl, rfl, hl.rewritten_of_eq h₁ h₂⟩

/-- On `sampleFunc` with `kTopDown`: one entry, `[a, b]`. -/
theorem sampleFunc_rewritten :
    ∃ fns g, graphClustingByDevice (clusterIOSpec sampleFunc) .topDown (fun _ => false)
        (fun _ => []) sampleFunc "device" "cuda" false true none [0, 2] [] [] = some (fns, g) ∧
      ∃ mds g₀, getMetadatas (clusterIOSpec sampleFunc) .topDown (fun _ => false) (fun _ => [])
          sampleFunc "device" "cuda" false true none [0, 2] [] [] = some (some mds, g₀) ∧
        g₀.body ~ sampleFunc.body ∧ g₀.terminator = sampleFunc.terminator ∧
        Layout g₀ (freshHandle sampleFunc) false mds ∧
        fns = createFunctions g₀ (freshHandle sampleFunc) mds ∧
        Rewritten g₀ (freshHandle sampleFunc) mds g := by
  refine ⟨_, _, rfl, ?_⟩
  exact graphClustingByDevice_rewritten (by decide) (by decide) (by rfl)
    (clusterIOSpec_meets sampleFunc) (by decide) (by decide) rfl

/-- **`kGreedy` is `kBottomUp` with `enableMultiGraph` and no `validateSubGraphFn`.** The
    metadata of both measuring runs then cover every key of `op2cluster`, so
    `topDownSize > bottomUpSize` never holds, and with no key both fail: the pass with
    `kGreedy` returns what it returns with `kBottomUp`, on every function. -/
theorem greedy_eq_bottomUp (hwf : WellFormed f)
    (horder : order ~ (initClusters isConstantLike f attrName).keys)
    (hTD : orderTD ~ (initClusters isConstantLike f attrName).keys)
    (hBU : orderBU ~ (initClusters isConstantLike f attrName).keys) :
    graphClustingByDevice io .greedy isConstantLike usesOf f attrName device dupOutputs true none
        order orderTD orderBU =
      graphClustingByDevice io .bottomUp isConstantLike usesOf f attrName device dupOutputs true
        none order orderTD orderBU := by
  have run := fun a {order} (horder : order ~ (initClusters isConstantLike f attrName).keys) =>
    runDirected_outcome hwf io a usesOf horder device dupOutputs true none
  obtain ⟨td, gT, eT, hT, cT⟩ := run .topDown hTD
  obtain ⟨bu, gB, eB, hB, cB⟩ := run .bottomUp hBU
  by_cases hk : (initClusters isConstantLike f attrName).keys = []
  · -- no key: the measuring runs and the final run have no metadata
    obtain ⟨mdo, g, e, hiff, -⟩ := run .bottomUp horder
    rw [hT.2 hk] at eT
    rw [hB.2 hk] at eB
    rw [hiff.2 hk] at e
    simp [graphClustingByDevice, getMetadatas, eT, eB, e]
  · -- both measuring runs cover every key
    obtain ⟨t, rfl⟩ := Option.ne_none_iff_exists'.1 (mt hT.1 hk)
    obtain ⟨b, rfl⟩ := Option.ne_none_iff_exists'.1 (mt hB.1 hk)
    have hsize : ¬coveredOps t > coveredOps b := by
      rw [cT rfl rfl t rfl, cB rfl rfl b rfl]
      exact lt_irrefl _
    simp only [graphClustingByDevice, getMetadatas, eT, eB, hsize, if_false,
      Option.bind_eq_bind, Option.some_bind]

/-- On `sampleFunc`, with the measuring runs on two different orders. -/
theorem sampleFunc_greedy_eq_bottomUp :
    graphClustingByDevice (clusterIOSpec sampleFunc) .greedy (fun _ => false) (fun _ => [])
        sampleFunc "device" "cuda" false true none [0, 2] [0, 2] [2, 0] =
      graphClustingByDevice (clusterIOSpec sampleFunc) .bottomUp (fun _ => false)
        (fun _ => []) sampleFunc "device" "cuda" false true none [0, 2] [0, 2] [2, 0] :=
  greedy_eq_bottomUp (by decide) (by decide) (by decide) (by decide)

end Pass


end GraphClustering
