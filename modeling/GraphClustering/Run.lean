/-
  The states of a clustering run, and what holds in all of them (assertions enabled).

  * `Reach f st₀`: the states reached from `st₀` by `getCluster` (path compression) and
    `tryMerge` calls;
  * `Reach.inv`: every state reached from the constructor's state satisfies `Inv`;
  * `tryMerge_preserves_dependencies`, `root_clusters_contiguous`,
    `cluster_forest_invariant`, `tryMergeInto_merge_shape` and
    `tryMergeInto_iff_validSplit`: what this says about the block, the forest and a merge;
  * `tryMerge_keeps_use_chains`: a merge keeps two ops in order when one depends on the
    other through a chain of uses; `tryMerge_swaps_conflicting_ops`: it decides on def-use
    alone, and can swap two ops whose memory effects conflict;
  * `computeMoveUpSet_ndebug_drops_op`: without assertions (`NDEBUG`) a rejected op of a
    cluster is dropped from both sides, and the merge then leaves it inside the merged
    cluster's range.
-/
import GraphClustering.MergeSpec

namespace GraphClustering

open List OpClusterMap

/-- The states a clustering run reaches from `st₀`, with assertions enabled: `getCluster`
    compresses paths with `getRoot`, and `tryMerge` merges. Every sequence of calls that
    `mergeDeviceClustersProgressively` and `populateCandidates` make is such a run. -/
inductive Reach (f : Func) (st₀ : ClusterState) : ClusterState → Prop
  | init : Reach f st₀ st₀
  | compress {st : ClusterState} {k r : Nat} {m' : OpClusterMap} : Reach f st₀ st →
      getRoot st.op2cluster st.op2cluster.length k = some (r, m') → Reach f st₀ ⟨st.block, m'⟩
  | merge {st st' : ClusterState} {l r res : Option Nat} : Reach f st₀ st →
      tryMerge true f st l r = some (res, st') → Reach f st₀ st'

variable {f : Func} {keys : List Nat} {isConstantLike : Operation → Bool} {attrName : String}
  {st : ClusterState}

theorem Inv.getRoot {b : List Nat} {m m' : OpClusterMap} {k r : Nat} (h : Inv f keys ⟨b, m⟩)
    (he : getRoot m m.length k = some (r, m')) : Root m k r ∧ SameForest m m' := by
  obtain ⟨r', hr'⟩ := h.rooted k ((h.keys_eq : m.keys = keys) ▸ mem_keys_of_getRoot he)
  obtain ⟨m'', he', hm''⟩ := getRoot_of_root hr'
  rw [he'] at he
  cases he
  exact ⟨hr', hm''⟩

/-- Every state of a run from the constructor's state satisfies the invariant. -/
theorem Reach.inv (hwf : WellFormed f) (hr : Reach f (initState isConstantLike f attrName) st) :
    Inv f (initClusters isConstantLike f attrName).keys st := by
  induction hr with
  | init => exact Inv.init hwf isConstantLike attrName
  | compress _ he ih => exact ih.of_sameForest (ih.getRoot he).2
  | merge _ hrun ih => exact ih.tryMerge hwf hrun

/-- A block where a merge moves an op: `a` (handle 0), a host op `h` (1) and an op `b` (2)
    that both use `a`, and the terminator (3) that returns `h` and `b`. Merging `a` into `b`
    moves `h` below `b`. -/
def sampleFunc : Func :=
  ⟨"main", [.mk 0 [] [] [], .mk 1 [.result 0 0] [("device", "host")] [], .mk 2 [.result 0 0] [] []],
    .mk 3 [.result 1 0, .result 2 0] [] []⟩

/-- The state `sampleFunc` starts from, with no constant-like op. -/
theorem sampleFunc_start : Reach sampleFunc (initState (fun _ => false) sampleFunc "device")
    (initState (fun _ => false) sampleFunc "device") :=
  Reach.init

/-- The state after merging `a` into `b` in `sampleFunc`: `h` moved below `b`. -/
def sampleMerged : ClusterState :=
  ⟨[0, 2, 1, 3], spliceInto (initClusters (fun _ => false) sampleFunc "device") 0 2 [0, 2]⟩

theorem sampleFunc_merge :
    tryMerge true sampleFunc (initState (fun _ => false) sampleFunc "device") (some 0) (some 2) =
      some (some 2, sampleMerged) := by
  decide

/-! ## The block -/

/-- **Merges keep the block in dependency order.** After each `tryMerge` of a run, the
    block is a permutation of the block before it, the terminator is last, and every
    operand (of an op, or nested in one) defined by an op of the block is defined
    earlier. -/
theorem tryMerge_preserves_dependencies (hwf : WellFormed f)
    (hr : Reach f (initState isConstantLike f attrName) st) {l r res : Option Nat}
    {st' : ClusterState} (hrun : tryMerge true f st l r = some (res, st')) :
    st'.block ~ st.block ∧ st'.block.getLast? = some f.terminator.name ∧
      DepOrdered f st'.block := by
  have h := hr.inv hwf
  have h' := (hr.merge hrun).inv hwf
  exact ⟨h'.perm.trans h.perm.symm, h'.last, h'.dep⟩

theorem sampleFunc_merge_keeps_order :
    [0, 2, 1, 3] ~ [0, 1, 2, 3] ∧ [0, 2, 1, 3].getLast? = some 3 ∧
      DepOrdered sampleFunc [0, 2, 1, 3] :=
  tryMerge_preserves_dependencies (by decide) sampleFunc_start sampleFunc_merge

/-! ## Side effects -/

/-- In every state of a run, an op that depends on an op of the block through a chain of
    uses comes after it. -/
theorem Inv.before_of_transGen (hwf : WellFormed f) (h : Inv f keys st) {u d : Nat}
    (hud : Relation.TransGen f.Uses u d) (hd : d ∈ f.names) : Before st.block d u := by
  have hmem : ∀ n ∈ f.names, n ∈ st.block := fun n hn => h.perm.mem_iff.2 hn
  induction hud with
  | single hu => exact h.dep _ _ hu (hmem _ (Func.mem_names_of_uses hu)) (hmem _ hd)
  | tail _ hbc ih =>
    have hb := Func.mem_names_of_uses hbc
    exact (h.dep _ _ hbc (hmem _ hb) (hmem _ hd)).trans (h.nodup hwf) (ih hb)

/-- **Merges keep every chain of uses in order.** In every state of a run, an op that
    depends on an op of the block through a chain of uses (each link an operand of an op,
    or of an op nested in it, defined by the next op) comes after it, and after a further
    `tryMerge` it still does. Nothing else orders two ops: memory effects play no part. -/
theorem tryMerge_keeps_use_chains (hwf : WellFormed f)
    (hr : Reach f (initState isConstantLike f attrName) st) {l r res : Option Nat}
    {st' : ClusterState} (hrun : tryMerge true f st l r = some (res, st')) {u d : Nat}
    (hud : Relation.TransGen f.Uses u d) (hd : d ∈ f.names) :
    Before st.block d u ∧ Before st'.block d u :=
  ⟨(hr.inv hwf).before_of_transGen hwf hud hd,
    ((hr.merge hrun).inv hwf).before_of_transGen hwf hud hd⟩

/-- The return uses `h`, which uses `a`: the merge of `a` into `b` keeps `a` before the
    return. -/
theorem sampleFunc_merge_keeps_use_chain :
    Before (initState (fun _ => false) sampleFunc "device").block 0 3 ∧
      Before sampleMerged.block 0 3 :=
  tryMerge_keeps_use_chains (by decide) sampleFunc_start sampleFunc_merge
    (.tail (.single (show sampleFunc.Uses 3 1 by unfold Func.Uses; decide))
      (by unfold Func.Uses; decide)) (by decide)

/-- A memory effect of an op (`MemoryEffectOpInterface`): a read or a write of a resource.
    Nothing in the pass asks an op for its effects. -/
structure MemEffect where
  resource : Nat
  write : Bool
  deriving DecidableEq, Repr

/-- The ops `x` and `y` have effects on a common resource, at least one of them a write, so
    their order matters even when no value links them. -/
def Conflicting (effects : Operation → List MemEffect) (x y : Operation) : Prop :=
  ∃ e ∈ effects x, ∃ e' ∈ effects y, e.resource = e'.resource ∧ (e.write || e'.write) = true

instance (effects : Operation → List MemEffect) (x y : Operation) :
    Decidable (Conflicting effects x y) :=
  inferInstanceAs (Decidable (∃ e ∈ _, ∃ e' ∈ _, _))

/-- Effects for `sampleFunc`: the host op `h` writes resource 0, which `b` reads. -/
def sampleEffects (op : Operation) : List MemEffect :=
  if op.name = 1 then [⟨0, true⟩] else if op.name = 2 then [⟨0, false⟩] else []

/-- **Merges can reorder ops whose effects conflict.** From the singleton clusters of
    `sampleFunc`, merging `a` into `b` moves `h` below `b`, since `h` uses `a` and `b` does
    not use `h`. No value links `h` and `b`, but under `sampleEffects` `h` writes the
    resource `b` reads: the merge decides on def-use alone, and `b` now reads before `h`
    writes. -/
theorem tryMerge_swaps_conflicting_ops :
    Reach sampleFunc (initState (fun _ => false) sampleFunc "device")
      (initState (fun _ => false) sampleFunc "device") ∧
    tryMerge true sampleFunc (initState (fun _ => false) sampleFunc "device") (some 0) (some 2) =
      some (some 2, sampleMerged) ∧
    Conflicting sampleEffects (sampleFunc.opOf 1) (sampleFunc.opOf 2) ∧
    ¬sampleFunc.Uses 1 2 ∧ ¬sampleFunc.Uses 2 1 ∧
    Before (initState (fun _ => false) sampleFunc "device").block 1 2 ∧
    Before sampleMerged.block 2 1 :=
  ⟨sampleFunc_start, sampleFunc_merge, by decide, by unfold Func.Uses; decide,
    by unfold Func.Uses; decide, by decide, by decide⟩

/-- **Root clusters are contiguous.** In every state of a run the op list of each root
    cluster is a contiguous range of the block, in block order; two distinct root
    clusters lie one after the other. -/
theorem root_clusters_contiguous (hwf : WellFormed f)
    (hr : Reach f (initState isConstantLike f attrName) st) :
    (∀ r, IsRoot st.op2cluster r → st.op2cluster.ops r <:+: st.block) ∧
      ∀ r r', IsRoot st.op2cluster r → IsRoot st.op2cluster r' → r ≠ r' →
        ∃ P G S, st.block = P ++ st.op2cluster.ops r ++ G ++ st.op2cluster.ops r' ++ S ∨
          st.block = P ++ st.op2cluster.ops r' ++ G ++ st.op2cluster.ops r ++ S :=
  have h := hr.inv hwf
  ⟨h.contig, fun _ _ hr hr' hne => h.exists_split hr hr' hne⟩

theorem sampleFunc_contiguous : sampleMerged.op2cluster.ops 2 <:+: [0, 2, 1, 3] :=
  (root_clusters_contiguous (by decide) (sampleFunc_start.merge sampleFunc_merge)).1 2
    ⟨_, rfl, rfl⟩

/-! ## The forest -/

theorem Inv.opOf_of_mem_keys (hwf : WellFormed f) {x : Nat}
    (hx : x ∈ (initClusters isConstantLike f attrName).keys) :
    (f.opOf x).isHostOp attrName = false := by
  obtain ⟨op, hop, rfl, hh, -⟩ := mem_keys_initClusters.1 hx
  have hop' : op ∈ f.ops := mem_append_left _ hop
  rwa [Func.eq_of_name_eq hwf.nodup (Func.ops_subset_walk (Func.opOf_mem (mem_map_of_mem _ hop')))
    (Func.ops_subset_walk hop') (Func.opOf_name _)]

/-- **The forest of clusters.** In every state of a run: each key has a root, which
    `getRoot` (with the number of clusters as its bound) returns without changing any
    root, and the key is in its root's op list; the op lists of the roots are non-empty,
    pairwise disjoint and together the key set, and those of other clusters are empty;
    the key set is the constructor's, and no op of a cluster is, or has nested in it, an
    op with the host attribute. -/
theorem cluster_forest_invariant (hwf : WellFormed f)
    (hr : Reach f (initState isConstantLike f attrName) st) :
    (∀ k ∈ st.op2cluster.keys, ∃ r, Root st.op2cluster k r ∧ k ∈ st.op2cluster.ops r ∧
      ∃ m', getRoot st.op2cluster st.op2cluster.length k = some (r, m') ∧
        SameForest st.op2cluster m') ∧
    (∀ r, IsRoot st.op2cluster r → st.op2cluster.ops r ≠ []) ∧
    (∀ r r', IsRoot st.op2cluster r → IsRoot st.op2cluster r' → r ≠ r' →
      ∀ x ∈ st.op2cluster.ops r, x ∉ st.op2cluster.ops r') ∧
    (∀ x, x ∈ st.op2cluster.keys ↔ ∃ r, IsRoot st.op2cluster r ∧ x ∈ st.op2cluster.ops r) ∧
    (∀ k, ¬IsRoot st.op2cluster k → st.op2cluster.ops k = []) ∧
    (∀ k, k ∈ st.op2cluster.keys ↔ ∃ op ∈ f.body, op.name = k ∧
      op.isHostOp attrName = false ∧ ¬(isConstantLike op = true ∧
        ∃ user, f.getResultUses op.name 0 = [user] ∧ user.isHostOp attrName = true)) ∧
    (∀ r x, x ∈ st.op2cluster.ops r → ∀ w ∈ (f.opOf x).walk,
      Operation.hasHostAttr attrName w = false) := by
  have h := hr.inv hwf
  have hkeys : st.op2cluster.keys = (initClusters isConstantLike f attrName).keys := h.keys_eq
  refine ⟨fun k hk => ?_, fun r hr => h.ops_ne_nil hr,
    fun r r' hr hr' hne x hx => h.not_mem_ops_of_ne hr hr' hne hx, fun x => ⟨fun hx => ?_, ?_⟩,
    h.nonroot, fun k => by rw [hkeys, mem_keys_initClusters], fun r x hx w hw => ?_⟩
  · obtain ⟨r, hr⟩ := h.rooted k (hkeys ▸ hk)
    obtain ⟨m', he, hm'⟩ := getRoot_of_root hr
    exact ⟨r, hr, h.mem_ops k r hr, m', he, hm'⟩
  · obtain ⟨r, hr⟩ := h.rooted x (hkeys ▸ hx)
    exact ⟨r, let ⟨_, h⟩ := hr; h.isRoot, h.mem_ops x r hr⟩
  · rintro ⟨r, -, hx⟩
    exact hkeys ▸ h.mem_keys_of_mem_ops hx
  · have := Inv.opOf_of_mem_keys hwf (h.mem_keys_of_mem_ops hx)
    by_contra hw'
    have : (f.opOf x).isHostOp attrName = true :=
      (Operation.isHostOp_iff attrName _).2 ⟨w, hw, by simpa using hw'⟩
    simp_all

theorem sampleFunc_forest :
    ∃ r, Root sampleMerged.op2cluster 0 r ∧ 0 ∈ sampleMerged.op2cluster.ops r ∧
      ∃ m', getRoot sampleMerged.op2cluster sampleMerged.op2cluster.length 0 = some (r, m') ∧
        SameForest sampleMerged.op2cluster m' :=
  (cluster_forest_invariant (by decide) (sampleFunc_start.merge sampleFunc_merge)).1 0
    (by decide)

/-! ## A merge -/

theorem mergeOutcome_iff {st : ClusterState} {fromC toC : Nat} {P A G B S : List Nat}
    (ho : MergeOutcome f st fromC toC P A G B S) :
    (∃ st', tryMergeInto true f st fromC toC = some (true, st')) ↔
      ∃ U D, ValidSplit f.Uses st.op2cluster A B G U D := by
  rcases ho with ⟨U, D, m', hv, -, -, -, he⟩ | ⟨hno, m', -, he⟩
  · exact ⟨fun _ => ⟨U, D, hv⟩, fun _ => ⟨_, he⟩⟩
  · rw [he]
    exact ⟨fun ⟨_, e⟩ => (by cases e), fun hv => absurd hv hno⟩

/-- **A successful merge.** On two distinct root clusters of a state of a run,
    `tryMergeInto` returns (no assertion fails); when it merges, the block was
    `P ++ A ++ G ++ B ++ S` with `A` and `B` the two op lists in block order, the gap `G`
    has a `ValidSplit` `U`, `D` (each in the order of `G`), the new block is
    `P ++ U ++ A ++ B ++ D ++ S`, `to` holds `A ++ B`, `from` holds nothing and points
    at `to`. -/
theorem tryMergeInto_merge_shape (hwf : WellFormed f)
    (hr : Reach f (initState isConstantLike f attrName) st) {fromC toC : Nat}
    (hne : fromC ≠ toC) (hf : IsRoot st.op2cluster fromC) (ht : IsRoot st.op2cluster toC) :
    (∃ merged st', tryMergeInto true f st fromC toC = some (merged, st')) ∧
    ∀ st', tryMergeInto true f st fromC toC = some (true, st') →
      ∃ P A G B S U D, st.block = P ++ A ++ G ++ B ++ S ∧
        (A = st.op2cluster.ops fromC ∧ B = st.op2cluster.ops toC ∨
          A = st.op2cluster.ops toC ∧ B = st.op2cluster.ops fromC) ∧
        ValidSplit f.Uses st.op2cluster A B G U D ∧ U <+ G ∧ D <+ G ∧
        st'.block = P ++ U ++ A ++ B ++ D ++ S ∧ st'.op2cluster.ops toC = A ++ B ∧
        st'.op2cluster.ops fromC = [] ∧
        ∃ c, st'.op2cluster.find fromC = some c ∧ c.mergedInto = some toC := by
  have h := hr.inv hwf
  obtain ⟨merged, st₁, e, -⟩ := h.tryMergeInto hwf hne hf ht
  refine ⟨⟨merged, st₁, e⟩, fun st' hst' => ?_⟩
  obtain ⟨P, A, G, B, S, hblk, hAB⟩ := h.exists_mergeSplit hne hf ht
  rcases tryMergeInto_cases hwf h hne hf ht hblk hAB with
    ⟨U, D, m', hv, hU, hD, hm', he⟩ | ⟨-, m', -, he⟩
  · rw [he] at hst'
    cases hst'
    have htk : toC ∈ m'.keys := let ⟨_, hc, _⟩ := hm'.isRoot_iff.2 ht; mem_keys_of_find hc
    obtain ⟨c, hc, -⟩ := hm'.isRoot_iff.2 hf
    refine ⟨P, A, G, B, S, U, D, hblk, hAB, hv, hU, hD, rfl, ?_, ?_,
      { c with operations := [], mergedInto := some toC }, ?_, rfl⟩
    · simp [ops_spliceInto hne htk, Ne.symm hne]
    · simp [ops_spliceInto hne htk]
    · rw [find_spliceInto hne, if_pos rfl, hc]; rfl
  · rw [he] at hst'
    cases hst'

theorem sampleFunc_merge_shape :
    ∃ P A G B S U D, [0, 1, 2, 3] = P ++ A ++ G ++ B ++ S ∧
      (A = [0] ∧ B = [2] ∨ A = [2] ∧ B = [0]) ∧
      ValidSplit sampleFunc.Uses (initClusters (fun _ => false) sampleFunc "device") A B G U D ∧
      U <+ G ∧ D <+ G ∧ [0, 2, 1, 3] = P ++ U ++ A ++ B ++ D ++ S ∧ [0, 2] = A ++ B ∧
      sampleMerged.op2cluster.ops 0 = [] ∧
      ∃ c, sampleMerged.op2cluster.find 0 = some c ∧ c.mergedInto = some 2 :=
  (tryMergeInto_merge_shape (by decide) sampleFunc_start (show 0 ≠ 2 by decide) ⟨_, rfl, rfl⟩
    ⟨_, rfl, rfl⟩).2 sampleMerged (by decide)

/-- **When a merge succeeds.** On two distinct root clusters of a state of a run whose
    block is `P ++ A ++ G ++ B ++ S`, `A` and `B` their op lists in block order:
    `tryMergeInto from to` merges iff the gap has a `ValidSplit`. The condition does not
    depend on which cluster is `from`, so `tryMergeInto to from` merges on exactly the
    same states, and `tryMerge lhs rhs` never returns `lhs` (its second attempt never
    succeeds after the first has failed). -/
theorem tryMergeInto_iff_validSplit (hwf : WellFormed f)
    (hr : Reach f (initState isConstantLike f attrName) st) {fromC toC : Nat}
    (hne : fromC ≠ toC) (hf : IsRoot st.op2cluster fromC) (ht : IsRoot st.op2cluster toC)
    {P A G B S : List Nat} (hblk : st.block = P ++ A ++ G ++ B ++ S)
    (hAB : A = st.op2cluster.ops fromC ∧ B = st.op2cluster.ops toC ∨
      A = st.op2cluster.ops toC ∧ B = st.op2cluster.ops fromC) :
    ((∃ st', tryMergeInto true f st fromC toC = some (true, st')) ↔
      ∃ U D, ValidSplit f.Uses st.op2cluster A B G U D) ∧
    ((∃ st', tryMergeInto true f st fromC toC = some (true, st')) ↔
      ∃ st', tryMergeInto true f st toC fromC = some (true, st')) ∧
    ∀ res st', tryMerge true f st (some fromC) (some toC) = some (res, st') →
      res ≠ some fromC := by
  have h := hr.inv hwf
  have hAB' := hAB.symm
  have ho := tryMergeInto_cases hwf h hne hf ht hblk hAB
  have ho' := tryMergeInto_cases hwf h hne.symm ht hf hblk hAB'
  refine ⟨mergeOutcome_iff ho, (mergeOutcome_iff ho).trans (mergeOutcome_iff ho').symm, ?_⟩
  intro res st' hrun
  obtain ⟨cf, hcf, hnf⟩ := hf
  obtain ⟨ct, hct, hnt⟩ := ht
  simp only [GraphClustering.tryMerge, hne, if_false, hcf, hct, hnf, hnt, Option.isSome_none,
    Bool.or_false, Bool.false_eq_true] at hrun
  rcases ho with ⟨U, D, m', -, -, -, -, he⟩ | ⟨hno, m', hm', he⟩
  · simp only [he, Option.bind_eq_bind, Option.some_bind, if_true] at hrun
    cases hrun
    exact fun e => hne (Option.some.inj e).symm
  · -- the first attempt failed; the second sees the same block and the same forest
    have h₁ : Inv f _ ⟨st.block, m'⟩ := h.of_sameForest hm'
    have hAB₁ : A = m'.ops toC ∧ B = m'.ops fromC ∨ A = m'.ops fromC ∧ B = m'.ops toC := by
      simpa only [hm'.ops_eq] using hAB'
    have ho₁ := tryMergeInto_cases hwf h₁ hne.symm (hm'.isRoot_iff.2 ⟨ct, hct, hnt⟩)
      (hm'.isRoot_iff.2 ⟨cf, hcf, hnf⟩) hblk hAB₁
    rcases ho₁ with ⟨U, D, -, hv, -⟩ | ⟨-, m₂, -, he₂⟩
    · exact absurd ⟨U, D, hv.of_sameForest hm'.symm⟩ hno
    · simp only [he, he₂, Option.bind_eq_bind, Option.some_bind, Bool.false_eq_true,
        if_false] at hrun
      cases hrun
      simp

theorem sampleFunc_gap_splits :
    ∃ U D, ValidSplit sampleFunc.Uses (initClusters (fun _ => false) sampleFunc "device")
      [0] [2] [1] U D :=
  (tryMergeInto_iff_validSplit (by decide) sampleFunc_start (show 0 ≠ 2 by decide) ⟨_, rfl, rfl⟩
    ⟨_, rfl, rfl⟩ (P := []) (A := [0]) (G := [1]) (B := [2]) (S := [3]) rfl
    (Or.inl ⟨rfl, rfl⟩)).1.1 ⟨sampleMerged, by decide⟩

/-! ## Without assertions -/

/-- A block where the gap op `x` (handle 1) uses the first cluster's op `a` (0), and `b`
    (2) is the second cluster; no host op. -/
def gapFunc : Func :=
  ⟨"main", [.mk 0 [] [] [], .mk 1 [.result 0 0] [] [], .mk 2 [] [] []],
    .mk 3 [.result 1 0, .result 2 0] [] []⟩

/-- **Without assertions a rejected op is lost.** Compiled with `NDEBUG`, the
    `remain.insert` of the cluster-wide rejection is not executed: on the gap `[x]`
    between the clusters `[a]` and `[b]`, `computeMoveUpSet` rejects `x` (it uses `a`) and
    returns it neither in `moveUp` nor in the new `src`. `tryMergeInto` then merges with
    `x` still between `a` and `b`, so the merged cluster `[a, b]` is not a contiguous
    range of the block. With assertions `x` stays in the residual and is moved below
    `b`. -/
theorem computeMoveUpSet_ndebug_drops_op :
    computeMoveUpSet false gapFunc [0] [1] (initClusters (fun _ => false) gapFunc "device") =
      some ([], [], initClusters (fun _ => false) gapFunc "device") ∧
    (∃ st', tryMergeInto false gapFunc (initState (fun _ => false) gapFunc "device") 0 2 =
      some (true, st') ∧ st'.block = [0, 1, 2, 3] ∧ st'.op2cluster.ops 2 = [0, 2] ∧
      ¬(st'.op2cluster.ops 2 <:+: st'.block)) ∧
    (tryMergeInto true gapFunc (initState (fun _ => false) gapFunc "device") 0 2).map
      (·.2.block) = some [0, 2, 1, 3] :=
  ⟨by decide, ⟨_, rfl, by decide, by decide, by decide⟩, by decide⟩

end GraphClustering
