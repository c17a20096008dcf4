/-
  What `populateCandidates` and `getFunctionMetadatas` return after either directed
  strategy.

  * `Reach.populateCandidates_step`: from every state of a run, `populateCandidates`
    returns every root cluster exactly once, sorted by non-increasing size;
  * `metadataLoop_flatMap`, `metadataLoop_single`: the ops of the metadata of all
    candidates, and the one metadata entry without `enableMultiGraph`;
  * `deviceClusteringAlgo_candidates`: the candidates of `DeviceClusteringAlgoBase` and
    the metadata built from them; `orderFunc` is a block with several candidates;
  * `deviceClusteringAlgo_order`: every iteration order of `op2cluster` covers the keys,
    and two orders give the same result (candidates of equal size in the stable order of
    the model's final sort) when the root clusters after the strategy's merges have
    pairwise distinct sizes; `twoRootFunc` is a block where they do, `orderFunc` one
    where they do not and the result depends on the order.
-/
import GraphClustering.Strategy

namespace GraphClustering

open List OpClusterMap

variable {f : Func} {isConstantLike : Operation → Bool} {attrName : String} {st : ClusterState}

/-! ## The candidates -/

/-- The op lists of a duplicate-free list of all roots, put together, are the keys. -/
theorem Inv.flatMap_ops_perm {keys : List Nat} (hwf : WellFormed f) (h : Inv f keys st)
    (hkeys : keys.Nodup) {cands : List Nat} (hnd : cands.Nodup)
    (hc : ∀ k, k ∈ cands ↔ IsRoot st.op2cluster k) :
    cands.flatMap st.op2cluster.ops ~ keys := by
  have hdisj : cands.Pairwise (Disjoint on st.op2cluster.ops) :=
    hnd.imp_of_mem fun ha hb hab _ hx hx' =>
      h.not_mem_ops_of_ne ((hc _).1 ha) ((hc _).1 hb) hab hx hx'
  refine (perm_ext_iff_of_nodup (nodup_flatMap.2 ⟨fun r hr => (h.nodup hwf).sublist
    (h.contig r ((hc r).1 hr)).sublist, hdisj⟩) hkeys).2 fun x => ⟨fun hx => ?_, fun hx => ?_⟩
  · obtain ⟨r, -, hx⟩ := mem_flatMap.1 hx
    exact h.mem_keys_of_mem_ops hx
  · obtain ⟨r, hr⟩ := h.rooted x hx
    exact mem_flatMap.2 ⟨r, (hc r).2 (let ⟨_, h⟩ := hr; h.isRoot), h.mem_ops x r hr⟩

theorem Inv.mem_rootsIn_iff {keys : List Nat} (h : Inv f keys st) {order : List Nat}
    (horder : order ~ keys) {k : Nat} :
    k ∈ rootsIn st.op2cluster order ↔ IsRoot st.op2cluster k := by
  refine mem_rootsIn.trans ⟨And.right, fun hk => ⟨horder.mem_iff.2 ?_, hk⟩⟩
  obtain ⟨_, hn⟩ := hk.root
  exact h.keys_eq ▸ hn.mem_keys

section Populate

variable (hwf : WellFormed f)
include hwf

/-- **`populateCandidates` returns every root once.** From every state of a run, and for
    every iteration order of `op2cluster`, `populateCandidates` returns; its candidates
    are the roots of the state it returns, each once, sorted by non-increasing size. -/
theorem Reach.populateCandidates_step (hr : Reach f (initState isConstantLike f attrName) st)
    {order : List Nat} (horder : order ~ (initClusters isConstantLike f attrName).keys) :
    ∃ cands st', populateCandidates f order st = some (cands, st') ∧
      Reach f (initState isConstantLike f attrName) st' ∧ cands.Nodup ∧
      (∀ k, k ∈ cands ↔ IsRoot st'.op2cluster k) ∧ cands.Sorted (sizeGe st'.op2cluster) := by
  have h := hr.inv hwf
  have hp := perm_insertionSort (sizeGe st.op2cluster) (rootsIn st.op2cluster order)
  have hnd : (rootsIn st.op2cluster order).Nodup :=
    (horder.nodup_iff.2 (initClusters_keys_nodup hwf isConstantLike attrName)).filter _
  obtain ⟨cands, st', e, hr', hnd', hroots⟩ := hr.populateLoop_step hwf le_rfl
    (fun k hk => (h.mem_rootsIn_iff horder).1 (hp.subset hk))
    (show ∀ k ∈ ([] : List Nat), _ from fun _ h => (not_mem_nil _ h).elim) (hp.nodup_iff.2 hnd)
  have hp' := perm_insertionSort (sizeGe st'.op2cluster) cands
  refine ⟨_, st', by simp only [populateCandidates, e, Option.bind_eq_bind, Option.some_bind]; rfl,
    hr', hp'.nodup_iff.2 hnd', fun k => hp'.mem_iff.trans ?_, sorted_insertionSort _ _⟩
  rw [hroots, nil_append, hp.mem_iff, h.mem_rootsIn_iff horder]
  exact (or_iff_left fun h => h.2 h.1).symm

end Populate

/-! ## The metadata -/

section Metadata

variable {io : ClusterIO} {device : String} {stats : Option (Value → Nat)}
  {m : OpClusterMap} {cands : List Nat}

/-- With `enableMultiGraph` and no `validateSubGraphFn`, the metadata has the ops of every
    non-empty candidate, in order. -/
theorem metadataLoop_flatMap (hne : ∀ c ∈ cands, m.ops c ≠ []) :
    (metadataLoop io device stats true none m cands).flatMap FunctionMetadata.ops =
      cands.flatMap m.ops := by
  induction cands with
  | nil => rfl
  | cons c cs ih =>
    have hc : ¬(m.ops c = [] ∨ rejects none (m.ops c) = true) := by
      simpa [rejects] using hne c (mem_cons_self _ _)
    rw [metadataLoop, if_neg hc, if_pos rfl, flatMap_cons, flatMap_cons,
      ih fun c' hc' => hne c' (mem_cons_of_mem _ hc')]

/-- Without `enableMultiGraph`, the metadata is empty when `validateSubGraphFn` rejects every
    candidate, and otherwise the first accepted candidate: on candidates sorted by size,
    one of the largest accepted. -/
theorem metadataLoop_single {validate : Option (List Nat → Bool)}
    (hs : cands.Sorted (sizeGe m)) (hne : ∀ c ∈ cands, m.ops c ≠ []) :
    (metadataLoop io device stats false validate m cands = [] ∧
      ∀ c ∈ cands, rejects validate (m.ops c) = true) ∨
    ∃ c ∈ cands, (metadataLoop io device stats false validate m cands).map
        FunctionMetadata.ops = [m.ops c] ∧ rejects validate (m.ops c) = false ∧
      ∀ c' ∈ cands, rejects validate (m.ops c') = false → (m.ops c').length ≤ (m.ops c).length := by
  induction cands with
  | nil => exact Or.inl ⟨rfl, fun _ h => (not_mem_nil _ h).elim⟩
  | cons c cs ih =>
    obtain ⟨hc, hs⟩ := sorted_cons.1 hs
    have hne' : ∀ c' ∈ cs, m.ops c' ≠ [] := fun c' h => hne c' (mem_cons_of_mem _ h)
    cases hrej : rejects validate (m.ops c)
    · -- `c` is accepted: the loop stops after it
      refine Or.inr ⟨c, mem_cons_self _ _, ?_, hrej, fun c' hc' _ => ?_⟩
      · simp [metadataLoop, hne c (mem_cons_self _ _), hrej]
      · rcases mem_cons.1 hc' with rfl | hc'
        exacts [le_rfl, hc c' hc']
    · -- `c` is rejected: the loop goes on with the rest
      have he : metadataLoop io device stats false validate m (c :: cs) =
          metadataLoop io device stats false validate m cs := by
        simp [metadataLoop, hrej]
      rw [he]
      rcases ih hs hne' with ⟨he', hall⟩ | ⟨c₀, hc₀, he', hacc, hmax⟩
      · refine Or.inl ⟨he', fun c' hc' => ?_⟩
        rcases mem_cons.1 hc' with rfl | hc'
        exacts [hrej, hall c' hc']
      · refine Or.inr ⟨c₀, mem_cons_of_mem _ hc₀, he', hacc, fun c' hc' hacc' => ?_⟩
        rcases mem_cons.1 hc' with rfl | hc'
        · simp [hrej] at hacc'
        · exact hmax c' hc' hacc'

end Metadata

/-- A block of four device ops around a host op: `a` (handle 0), `b` (1), a host op `h` (2)
    that uses `b`, `c` (3) and `d` (4) that use `h`, and the terminator (5) that returns
    `a`, `c` and `d`. No merge of the strategies applies (`h` is in no cluster), so
    `populateCandidates` starts from four clusters of one op, and its worklist merges them
    into several candidates. -/
def orderFunc : Func :=
  ⟨"main", [.mk 0 [] [] [], .mk 1 [] [] [], .mk 2 [.result 1 0] [("device", "host")] [],
    .mk 3 [.result 2 0] [] [], .mk 4 [.result 2 0] [] []],
    .mk 5 [.result 0 0, .result 3 0, .result 4 0] [] []⟩

/-- The candidates' op lists and the block of a run of `DeviceClusteringAlgoBase`. -/
def candidateOps (r : List Nat × ClusterState) : List (List Nat) × List Nat :=
  (r.1.map r.2.op2cluster.ops, r.2.block)

/-- **The candidates and their metadata.** For either directed strategy and every
    iteration order of `op2cluster`, `DeviceClusteringAlgoBase` returns candidates that
    are the root clusters of its final state, each once, sorted by non-increasing size,
    each non-empty. With `enableMultiGraph` and no `validateSubGraphFn`, the ops of the
    metadata together are the keys of `op2cluster`, each once (so they are pairwise
    disjoint); there is no metadata only when there is no key. Without
    `enableMultiGraph`, the metadata is empty when every candidate is rejected, and
    otherwise its one entry is a largest accepted candidate. -/
theorem deviceClusteringAlgo_candidates (hwf : WellFormed f) (algo : DirectedAlgo)
    (usesOf : Nat → List Nat) {order : List Nat}
    (horder : order ~ (initClusters isConstantLike f attrName).keys) :
    ∃ cands st, deviceClusteringAlgo algo isConstantLike usesOf f attrName order =
        some (cands, st) ∧
      cands.Nodup ∧ (∀ k, k ∈ cands ↔ IsRoot st.op2cluster k) ∧
      cands.Sorted (sizeGe st.op2cluster) ∧ (∀ k ∈ cands, st.op2cluster.ops k ≠ []) ∧
      (∀ io device dupOutputs,
        (getFunctionMetadatas io f st cands device dupOutputs true none = none ∧
          st.op2cluster.keys = []) ∨
        ∃ mds, getFunctionMetadatas io f st cands device dupOutputs true none = some mds ∧
          mds.flatMap FunctionMetadata.ops ~ st.op2cluster.keys ∧
          mds.Pairwise (Disjoint on FunctionMetadata.ops)) ∧
      ∀ io device dupOutputs validate mds,
        getFunctionMetadatas io f st cands device dupOutputs false validate = some mds →
        (mds = [] ∧ ∀ c ∈ cands, rejects validate (st.op2cluster.ops c) = true) ∨
        ∃ c ∈ cands, mds.map FunctionMetadata.ops = [st.op2cluster.ops c] ∧
          rejects validate (st.op2cluster.ops c) = false ∧
          ∀ c' ∈ cands, rejects validate (st.op2cluster.ops c') = false →
            (st.op2cluster.ops c').length ≤ (st.op2cluster.ops c).length := by
  obtain ⟨st₀, e₀, hr₀⟩ :=
    @Reach.mergeDeviceClustersProgressively_step f isConstantLike attrName hwf algo usesOf
  obtain ⟨cands, st, e, hr, hnd, hc, hs⟩ := hr₀.populateCandidates_step hwf horder
  have h := hr.inv hwf
  have hne : ∀ k ∈ cands, st.op2cluster.ops k ≠ [] := fun k hk => h.ops_ne_nil ((hc k).1 hk)
  refine ⟨cands, st, by simp only [deviceClusteringAlgo, e₀, e, Option.bind_eq_bind,
    Option.some_bind], hnd, hc, hs, hne, fun io device dupOutputs => ?_,
    fun io device dupOutputs validate mds hmds => ?_⟩
  · cases cands with
    | nil =>
      refine Or.inl ⟨rfl, eq_nil_iff_forall_not_mem.2 fun k hk => ?_⟩
      obtain ⟨r, ⟨_, hn⟩⟩ := h.rooted k (h.keys_eq ▸ hk)
      exact not_mem_nil r ((hc r).2 hn.isRoot)
    | cons c cs =>
      refine Or.inr ⟨_, by simp [getFunctionMetadatas, hne c (mem_cons_self _ _)]; rfl, ?_⟩
      have hkeys := initClusters_keys_nodup hwf isConstantLike attrName
      have hp : (metadataLoop io device (if dupOutputs then some (retStats f) else none) true none
          st.op2cluster (c :: cs)).flatMap
          FunctionMetadata.ops ~ st.op2cluster.keys := by
        rw [metadataLoop_flatMap hne, h.keys_eq]
        exact h.flatMap_ops_perm hwf hkeys hnd hc
      exact ⟨hp, (nodup_flatMap.1 (hp.nodup_iff.2 (h.keys_eq ▸ hkeys))).2⟩
  · cases cands with
    | nil => cases hmds
    | cons c cs =>
      simp only [getFunctionMetadatas, hne c (mem_cons_self _ _), if_false,
        Option.some.injEq] at hmds
      subst hmds
      exact metadataLoop_single hs hne

/-- On `orderFunc` in the order `a, c, b, d`: two candidates, `[a, c, d]` and then `[b]`,
    whose metadata are disjoint and cover the four keys. -/
theorem orderFunc_candidates :
    ∃ cands st, deviceClusteringAlgo .topDown (fun _ => false) (fun _ => []) orderFunc "device"
        [0, 3, 1, 4] = some (cands, st) ∧
      cands.Nodup ∧ (∀ k, k ∈ cands ↔ IsRoot st.op2cluster k) ∧
      cands.Sorted (sizeGe st.op2cluster) ∧ cands.map st.op2cluster.ops = [[0, 3, 4], [1]] ∧
      ∀ io, ∃ mds, getFunctionMetadatas io orderFunc st cands "cuda" false true none = some mds ∧
        mds.flatMap FunctionMetadata.ops ~ st.op2cluster.keys ∧
        mds.Pairwise (Disjoint on FunctionMetadata.ops) := by
  obtain ⟨cands, st, e, hnd, hc, hs, -, hmulti, -⟩ := @deviceClusteringAlgo_candidates orderFunc
    (fun _ => false) "device" (by decide) .topDown (fun _ => []) [0, 3, 1, 4] (by decide)
  have hrun : (deviceClusteringAlgo .topDown (fun _ => false) (fun _ => []) orderFunc "device"
      [0, 3, 1, 4]).map (fun r => (r.1.map r.2.op2cluster.ops, r.2.op2cluster.keys.length)) =
      some ([[0, 3, 4], [1]], 4) := by decide
  rw [e] at hrun
  obtain ⟨hops, hkeys⟩ := Prod.mk.inj (Option.some.inj hrun)
  exact ⟨cands, st, e, hnd, hc, hs, hops, fun io =>
    (hmulti io "cuda" false).resolve_left fun ⟨_, hk⟩ => by simp [hk] at hkeys⟩

/-! ## The iteration order of `op2cluster` -/

/-- The root clusters of `m` have pairwise distinct sizes. -/
def DistinctRootSizes (m : OpClusterMap) : Prop :=
  ((rootsIn m m.keys).map fun r => (m.ops r).length).Nodup

instance (m : OpClusterMap) : Decidable (DistinctRootSizes m) :=
  inferInstanceAs (Decidable (List.Nodup _))

/-- When the root clusters have pairwise distinct sizes, the worklist of
    `populateCandidates`, sorted by size, is the same for every iteration order. -/
theorem insertionSort_rootsIn_eq {m : OpClusterMap} {order₁ order₂ : List Nat}
    (h₁ : order₁ ~ m.keys) (h₂ : order₂ ~ m.keys)
    (hd : DistinctRootSizes m) :
    (rootsIn m order₁).insertionSort (sizeGe m) = (rootsIn m order₂).insertionSort (sizeGe m) := by
  let size r := (m.ops r).length
  -- on entries of distinct sizes the sort is strict, and a strict order is antisymmetric
  have strict : ∀ l : List Nat, l.Sorted (sizeGe m) → (l.map size).Nodup →
      l.Sorted fun a b => size b < size a := fun l hs hd =>
    (hs.and (hd.of_map _)).imp_of_mem fun ha hb ⟨hab, hne⟩ =>
      lt_of_le_of_ne hab fun e => hne (inj_on_of_nodup_map hd ha hb e.symm)
  haveI : IsAntisymm Nat fun a b => size b < size a :=
    ⟨fun _ _ h h' => absurd (h.trans h') (lt_irrefl _)⟩
  have hp : ∀ order, order ~ m.keys → (rootsIn m order).insertionSort (sizeGe m) ~
      rootsIn m m.keys := fun order h => (perm_insertionSort _ _).trans (h.filter _)
  have hsd : ∀ order, order ~ m.keys →
      (((rootsIn m order).insertionSort (sizeGe m)).map size).Nodup :=
    fun order h => ((hp order h).map size).nodup_iff.2 hd
  exact eq_of_perm_of_sorted ((hp order₁ h₁).trans (hp order₂ h₂).symm)
    (strict _ (sorted_insertionSort _ _) (hsd order₁ h₁))
    (strict _ (sorted_insertionSort _ _) (hsd order₂ h₂))

/-- **The iteration order of `op2cluster`.** For either directed strategy and any two
    iteration orders of `op2cluster`, `DeviceClusteringAlgoBase` returns, and in each the
    candidates' op lists together are the keys, each once. The two results are the same
    (candidates, op lists and block) when the root clusters after the strategy's merges
    have pairwise distinct sizes: the worklist is then the same, and the final sort, the
    model's stable one, orders the same candidates the same way. Otherwise the order of
    equal-size clusters in the worklist, and with it which clusters are merged, depends on
    the iteration order (`orderFunc_candidates_depend_on_order`). -/
theorem deviceClusteringAlgo_order (hwf : WellFormed f) (algo : DirectedAlgo)
    (usesOf : Nat → List Nat) {order₁ order₂ : List Nat}
    (h₁ : order₁ ~ (initClusters isConstantLike f attrName).keys)
    (h₂ : order₂ ~ (initClusters isConstantLike f attrName).keys) :
    ∃ r₁ r₂, deviceClusteringAlgo algo isConstantLike usesOf f attrName order₁ = some r₁ ∧
      deviceClusteringAlgo algo isConstantLike usesOf f attrName order₂ = some r₂ ∧
      r₁.1.flatMap r₁.2.op2cluster.ops ~ (initClusters isConstantLike f attrName).keys ∧
      r₂.1.flatMap r₂.2.op2cluster.ops ~ (initClusters isConstantLike f attrName).keys ∧
      ((∀ st ∈ mergeDeviceClustersProgressively algo usesOf f
          (initState isConstantLike f attrName), DistinctRootSizes st.op2cluster) →
        r₁ = r₂) := by
  have hkeys := initClusters_keys_nodup hwf isConstantLike attrName
  obtain ⟨st₀, e₀, hr₀⟩ :=
    @Reach.mergeDeviceClustersProgressively_step f isConstantLike attrName hwf algo usesOf
  have hrun : ∀ order, deviceClusteringAlgo algo isConstantLike usesOf f attrName order =
      populateCandidates f order st₀ := fun order => by
    simp only [deviceClusteringAlgo, e₀, Option.bind_eq_bind, Option.some_bind]
  obtain ⟨cands₁, st₁, e₁, hr₁, hnd₁, hc₁, -⟩ := hr₀.populateCandidates_step hwf h₁
  obtain ⟨cands₂, st₂, e₂, hr₂, hnd₂, hc₂, -⟩ := hr₀.populateCandidates_step hwf h₂
  refine ⟨_, _, (hrun _).trans e₁, (hrun _).trans e₂,
    (hr₁.inv hwf).flatMap_ops_perm hwf hkeys hnd₁ hc₁,
    (hr₂.inv hwf).flatMap_ops_perm hwf hkeys hnd₂ hc₂, fun hd => ?_⟩
  have hk₀ := (hr₀.inv hwf).keys_eq
  have hwl := insertionSort_rootsIn_eq (hk₀ ▸ h₁) (hk₀ ▸ h₂) (hd st₀ e₀)
  have e : populateCandidates f order₁ st₀ = populateCandidates f order₂ st₀ := by
    simp only [populateCandidates, hwl]
  exact Option.some.inj (e₁.symm.trans (e.trans e₂))

/-- A block that the strategies leave with two root clusters of distinct sizes: `a`
    (handle 0), `b` (1) that uses `a`, a host op `h` (2) that uses `b`, `c` (3) that uses
    `h`, and the terminator (4) that returns `c`. `b` merges into `a`; `h` keeps `c` apart. -/
def twoRootFunc : Func :=
  ⟨"main", [.mk 0 [] [] [], .mk 1 [.result 0 0] [] [],
    .mk 2 [.result 1 0] [("device", "host")] [], .mk 3 [.result 2 0] [] []],
    .mk 4 [.result 3 0] [] []⟩

/-- On `twoRootFunc` the orders `a, b, c` and `c, b, a` give the same result: the
    candidates `[a, b]` and then `[c]`, with the block unchanged. -/
theorem twoRootFunc_order :
    ∃ r₁ r₂, deviceClusteringAlgo .topDown (fun _ => false) (fun _ => []) twoRootFunc "device"
        [0, 1, 3] = some r₁ ∧
      deviceClusteringAlgo .topDown (fun _ => false) (fun _ => []) twoRootFunc "device"
        [3, 1, 0] = some r₂ ∧
      r₁ = r₂ ∧ candidateOps r₁ = ([[0, 1], [3]], [0, 1, 2, 3, 4]) := by
  obtain ⟨r₁, r₂, e₁, e₂, -, -, heq⟩ := @deviceClusteringAlgo_order twoRootFunc
    (fun _ => false) "device" (by decide) .topDown (fun _ => []) [0, 1, 3] [3, 1, 0]
    (by decide) (by decide)
  have hrun : (deviceClusteringAlgo .topDown (fun _ => false) (fun _ => []) twoRootFunc "device"
      [0, 1, 3]).map candidateOps = some ([[0, 1], [3]], [0, 1, 2, 3, 4]) := by decide
  rw [e₁] at hrun
  exact ⟨r₁, r₂, e₁, e₂, heq (by decide), Option.some.inj hrun⟩

/-- In the order `a, b, c, d` the worklist merges `b` into `a` and `d` into `c` (two
    clusters of two ops, block unchanged); in the order `a, c, b, d` it first merges `c`
    into `a`, moving `b` and `h` above `a`, then `d` (a cluster of three ops and one of
    one). Both strategies behave so. -/
theorem orderFunc_candidates_depend_on_order :
    [0, 1, 3, 4] ~ (initClusters (fun _ => false) orderFunc "device").keys ∧
    [0, 3, 1, 4] ~ (initClusters (fun _ => false) orderFunc "device").keys ∧
    (deviceClusteringAlgo .topDown (fun _ => false) (fun _ => []) orderFunc "device"
      [0, 1, 3, 4]).map candidateOps = some ([[0, 1], [3, 4]], [0, 1, 2, 3, 4, 5]) ∧
    (deviceClusteringAlgo .topDown (fun _ => false) (fun _ => []) orderFunc "device"
      [0, 3, 1, 4]).map candidateOps = some ([[0, 3, 4], [1]], [1, 2, 0, 3, 4, 5]) ∧
    (deviceClusteringAlgo .bottomUp (fun _ => false) (fun n => (orderFunc.getUses n).map
      Operation.name) orderFunc "device" [0, 1, 3, 4]).map candidateOps =
      some ([[0, 1], [3, 4]], [0, 1, 2, 3, 4, 5]) ∧
    (deviceClusteringAlgo .bottomUp (fun _ => false) (fun n => (orderFunc.getUses n).map
      Operation.name) orderFunc "device" [0, 3, 1, 4]).map candidateOps =
      some ([[0, 3, 4], [1]], [1, 2, 0, 3, 4, 5]) :=
  ⟨by decide, by decide, by decide, by decide, by decide, by decide⟩

end GraphClustering
