/-
  `GraphClustingByDevice` with `kFallback`, end to end.

  The fallback does not reorder the block: its host entry and its device entry are the body
  split by the host closure, each in block order. When each of them is a contiguous range of
  the block, they meet `Layout`, and the calls and the erase loop are those of the directed
  strategies.

  * `HostReach.exists_host`: the host closure is empty unless the body has a host op;
  * `getFunctionMetadatasFallback_entries`: when the fallback returns `nullopt`, and the
    entries it returns otherwise, each with the inputs and outputs the helpers give;
  * `fallback_layout`: with both entries contiguous, the entries meet `Layout`;
  * `graphClustingByDevice_fallback_correct`: then the pass fails exactly when
    `validateSubGraphFn` rejects the device ops, and what it returns is well formed, defines
    every value before its first use when `f` does, and computes what `f` computes. `fallbackFunc` (with `fallback_call_uses_later_call`) is a
    block whose host entry is not contiguous, where this fails.
-/
import GraphClustering.PassOutcome

namespace GraphClustering

open List

variable {f : Func} {attrName : String}

/-- A handle of the host closure comes from a host op of the body. -/
theorem HostReach.exists_host {n : Nat} (h : HostReach f attrName n) :
    ∃ o ∈ f.body, o.isHostOp attrName = true := by
  induction h with
  | host ho hh => exact ⟨_, ho, hh⟩
  | operand _ _ ih => exact ih

section Entries

variable {io : ClusterIO} {device : String} {dupOutputs : Bool}
  {validate : Option (List Nat → Bool)}

/-- **The entries of the fallback.** It returns `nullopt` exactly when the device ops (the
    body outside the host closure) are not empty and `validateSubGraphFn` rejects them.
    Otherwise its entries have disjoint op lists, each the host ops or the device ops of the
    body, not empty, with the inputs and outputs the helpers return for them. -/
theorem getFunctionMetadatasFallback_entries :
    (getFunctionMetadatasFallback io f attrName device dupOutputs validate = none ↔
      (f.body.map Operation.name).filter (¬HostReach f attrName ·) ≠ [] ∧
        rejects validate ((f.body.map Operation.name).filter (¬HostReach f attrName ·)) =
          true) ∧
    ∀ mds, getFunctionMetadatasFallback io f attrName device dupOutputs validate = some mds →
      mds.Pairwise (Disjoint on FunctionMetadata.ops) ∧
      ∀ md ∈ mds, md.ops ≠ [] ∧
        (md.ops = (f.body.map Operation.name).filter (HostReach f attrName ·) ∨
          md.ops = (f.body.map Operation.name).filter (¬HostReach f attrName ·)) ∧
        md.inputs = io.getInputsOfCluster md.ops ∧
        md.results = io.getOutputsOfCluster md.ops
          (if dupOutputs then some (retStats f) else none) := by
  have key := @mem_hostOps_iff f attrName
  simp only [getFunctionMetadatasFallback]
  generalize List.foldl (fun s op => if op.isHostOp attrName = true then
    insertOpsRecursively f (f.walk.length + 1) op.name s else s) [] f.body = H at key ⊢
  have hhost : (f.body.map Operation.name).filter (· ∈ H) =
      (f.body.map Operation.name).filter (HostReach f attrName ·) :=
    filter_congr fun _ _ => decide_eq_decide.2 key
  have hdev : (f.body.map Operation.name).filter (· ∉ H) =
      (f.body.map Operation.name).filter (¬HostReach f attrName ·) :=
    filter_congr fun _ _ => decide_eq_decide.2 (not_congr key)
  -- a host entry is made only when the closure, hence the host ops of the body, is not empty
  have hH : H ≠ [] → (f.body.map Operation.name).filter (HostReach f attrName ·) ≠ [] := by
    intro hH
    obtain ⟨n, hn⟩ := exists_mem_of_ne_nil H hH
    obtain ⟨o, ho, hh⟩ := (key.1 hn).exists_host
    exact ne_nil_of_mem (mem_filter.2 ⟨mem_map_of_mem _ ho, decide_eq_true (.host ho hh)⟩)
  have hsplit : FallbackSplit f attrName _ _ := fallbackSplit_filter
  rw [hhost, hdev]
  generalize (if dupOutputs then some (retStats f) else none) = stats
  refine ⟨?_, fun mds h => ?_⟩
  · split_ifs with hD hr
    · exact iff_of_true rfl ⟨hD, hr⟩
    · exact iff_of_false not_false fun h => hr h.2
    · exact iff_of_false not_false fun h => hD h.1
  split_ifs at h with hD hr hH' hH' <;> cases h
  · exact ⟨pairwise_pair.2 hsplit.disjoint, forall_mem_cons.2 ⟨⟨hH hH', .inl rfl, rfl, rfl⟩,
      forall_mem_singleton.2 ⟨hD, .inr rfl, rfl, rfl⟩⟩⟩
  · exact ⟨pairwise_singleton _ _, forall_mem_singleton.2 ⟨hD, .inr rfl, rfl, rfl⟩⟩
  · exact ⟨pairwise_singleton _ _, forall_mem_singleton.2 ⟨hH hH', .inl rfl, rfl, rfl⟩⟩
  · exact ⟨Pairwise.nil, fun _ h => absurd h (not_mem_nil _)⟩

/-- **Contiguous fallback entries meet `Layout`.** When the host ops and the device ops of the
    body are each a contiguous range of the block, the entries the fallback returns meet
    `Layout` for `f` itself, with the handles above those of `f`. -/
theorem fallback_layout (hwf : WellFormed f) (hdef : OperandsDefined f)
    (hret : f.terminator.regions = []) (hio : io.Meets f)
    (hhost : (f.body.map Operation.name).filter (HostReach f attrName ·) <:+: f.names)
    (hdev : (f.body.map Operation.name).filter (¬HostReach f attrName ·) <:+: f.names)
    {mds : List FunctionMetadata}
    (h : getFunctionMetadatasFallback io f attrName device dupOutputs validate = some mds) :
    Layout f (freshHandle f) dupOutputs mds := by
  obtain ⟨hdisj, hmds⟩ := getFunctionMetadatasFallback_entries.2 mds h
  have hnd : ∀ md ∈ mds, md.ops.Nodup := fun md hmd => by
    rcases (hmds md hmd).2.1 with e | e <;> exact e ▸ hwf.bodyNames_nodup.filter _
  refine ⟨hwf, hret, fun w hw => lt_freshHandle (mem_map_of_mem _ hw),
    fun w hw v hv c i hvc => lt_freshHandle (hdef w hw v hv c (by rw [hvc]; rfl)),
    fun md hmd => (hmds md hmd).1, fun md hmd n hn => ?_, hdisj, fun md hmd => ?_,
    fun md hmd v => ?_, fun md hmd v => ?_, fun hdup md hmd v hv hvt => ?_⟩
  · rcases (hmds md hmd).2.1 with e | e <;> rw [e] at hn <;> exact (mem_filter.1 hn).1
  · rcases (hmds md hmd).2.1 with e | e <;> rw [e] <;> assumption
  · rw [(hmds md hmd).2.2.1]
    exact hio.inputs _ v
  · rw [(hmds md hmd).2.2.2]
    exact hio.mem_outputs (hnd md hmd) _ v
  · rw [(hmds md hmd).2.2.2, hdup, if_pos rfl] at hv ⊢
    exact hio.count_retStats (hnd md hmd) hv hvt

end Entries

section Pass

variable {io : ClusterIO} {isConstantLike : Operation → Bool} {usesOf : Nat → List Nat}
  {device : String} {dupOutputs multi : Bool} {validate : Option (List Nat → Bool)}
  {order orderTD orderBU : List Nat}

/-- **`GraphClustingByDevice` with `kFallback` is correct on contiguous entries.** For a
    well-formed function whose operands are all defined, whose terminator has no regions,
    cluster helpers that return what the pass asks of them, and a block in which the ops of
    the host closure, and the other ops of the body, each form a contiguous range (every
    host op before every device op, or after): the pass fails exactly when
    `validateSubGraphFn` rejects the non-empty device ops; whatever it returns is well
    formed, as is each created function; both define every value before its first use when
    `f` does; and, each call run as the body of the function it calls, the rewritten
    function returns what `f` returns on every argument list. -/
theorem graphClustingByDevice_fallback_correct (hwf : WellFormed f) (hdef : OperandsDefined f)
    (hret : f.terminator.regions = []) (hio : io.Meets f)
    (hhost : (f.body.map Operation.name).filter (HostReach f attrName ·) <:+: f.names)
    (hdev : (f.body.map Operation.name).filter (¬HostReach f attrName ·) <:+: f.names) :
    (graphClustingByDevice io .fallback isConstantLike usesOf f attrName device dupOutputs multi
        validate order orderTD orderBU = none ↔
      (f.body.map Operation.name).filter (¬HostReach f attrName ·) ≠ [] ∧
        rejects validate ((f.body.map Operation.name).filter (¬HostReach f attrName ·)) =
          true) ∧
    ∀ fns g, graphClustingByDevice io .fallback isConstantLike usesOf f attrName device
        dupOutputs multi validate order orderTD orderBU = some (fns, g) →
      WellFormed g ∧ (∀ fn ∈ fns, WellFormed fn) ∧
      (f.DefinesBeforeUse → g.DefinesBeforeUse ∧ ∀ fn ∈ fns, fn.DefinesBeforeUse) ∧
      ∀ (α : Type) [Inhabited α] (I : Interp α), RespectsRenaming I → ∀ args : List α,
        runFunc (callSem I (freshHandle f + 1) fns) g args = runFunc (plainSem I) f args := by
  have hget : getMetadatas io .fallback isConstantLike usesOf f attrName device dupOutputs multi
      validate order orderTD orderBU =
      some (getFunctionMetadatasFallback io f attrName device dupOutputs validate, f) := rfl
  refine ⟨?_, fun fns g h => ?_⟩
  · rw [← getFunctionMetadatasFallback_entries.1]
    cases hmds : getFunctionMetadatasFallback io f attrName device dupOutputs validate with
    | none => simp [graphClustingByDevice, hget, hmds]
    | some mds =>
      -- with entries, the calls and the erase loop return
      obtain ⟨g₁, g₂, h₁, h₂, -⟩ := (fallback_layout hwf hdef hret hio hhost hdev hmds).rewrite_spec
      simp [graphClustingByDevice, hget, hmds, h₁, h₂]
  · obtain ⟨mds, g₀, g₁, hget', h₁, h₂, rfl⟩ := graphClustingByDevice_eq_some h
    obtain ⟨hmds, rfl⟩ := Prod.mk.inj (Option.some.inj (hget.symm.trans hget'))
    obtain ⟨hwfg, hwfs, hdbu, hrun⟩ :=
      (fallback_layout hwf hdef hret hio hhost hdev hmds).rewrite_correct h₁ h₂
    exact ⟨hwfg, hwfs, fun hd => hdbu hd.toScoped, hrun⟩

end Pass

/-- A block with a host op `h` (handle 0) before the device ops `d` (1), which uses `h`, and
    `e` (2), which uses `d`; the terminator (3) returns `e` and `h`. -/
def hostFirstFunc : Func :=
  ⟨"main", [.mk 0 [] [("device", "host")] [], .mk 1 [.result 0 0] [] [],
    .mk 2 [.result 1 0] [] []], .mk 3 [.result 2 0, .result 0 0] [] []⟩

/-- The fallback on `hostFirstFunc`, with `dupOutputs`: the host entry `[h]` and the device
    entry `[d, e]` are contiguous. -/
theorem hostFirstFunc_fallback_correct :
    (graphClustingByDevice (clusterIOSpec hostFirstFunc) .fallback (fun _ => false) (fun _ => [])
        hostFirstFunc "device" "cuda" true false none [] [] [] = none ↔
      (hostFirstFunc.body.map Operation.name).filter (¬HostReach hostFirstFunc "device" ·) ≠ [] ∧
        rejects none ((hostFirstFunc.body.map Operation.name).filter
          (¬HostReach hostFirstFunc "device" ·)) = true) ∧
    ∀ fns g, graphClustingByDevice (clusterIOSpec hostFirstFunc) .fallback (fun _ => false)
        (fun _ => []) hostFirstFunc "device" "cuda" true false none [] [] [] = some (fns, g) →
      WellFormed g ∧ (∀ fn ∈ fns, WellFormed fn) ∧
      (hostFirstFunc.DefinesBeforeUse →
        g.DefinesBeforeUse ∧ ∀ fn ∈ fns, fn.DefinesBeforeUse) ∧
      ∀ (α : Type) [Inhabited α] (I : Interp α), RespectsRenaming I → ∀ args : List α,
        runFunc (callSem I (freshHandle hostFirstFunc + 1) fns) g args =
          runFunc (plainSem I) hostFirstFunc args :=
  graphClustingByDevice_fallback_correct (by decide) (by decide) (by rfl)
    (clusterIOSpec_meets _) (by decide) (by decide)

/-- On `hostFirstFunc` the pass creates the host function `[h, return h]` and the device
    function `[d, e, return e]` on one argument, and leaves the block
    `[call5, call6(call5#0), return(call6#0, call5#0)]`. -/
example : (graphClustingByDevice (clusterIOSpec hostFirstFunc) .fallback (fun _ => false)
    (fun _ => []) hostFirstFunc "device" "cuda" true false none [] [] []).map
      (fun p => (p.1.map fun fn => fn.ops.map (fun o => (o.name, o.operands)),
        p.2.ops.map fun o => (o.name, o.operands))) =
    some ([[(0, []), (4, [.result 0 0])],
        [(1, [.arg 0]), (2, [.result 1 0]), (4, [.result 2 0])]],
      [(5, []), (6, [.result 5 0]), (3, [.result 6 0, .result 5 0])]) := by decide

end GraphClustering
