/-
  The rewritten function computes what the source computes.

  * `WellFormed.ssaOrdered`: a well-formed block is in SSA order for every way of reading
    its ops within their operands;
  * `Layout.runFunc_createFunction`: a created function, run on the values the entry's
    inputs have in a run of `g`, returns the values its results have there;
  * `Rewritten.runFunc_eq`: the rewritten function, each call run as the body of the
    function it calls, returns what `g` returns, on every argument list.
-/
import GraphClustering.Rewritten

namespace GraphClustering

open List

/-! ## Runs of well-formed functions -/

theorem WellFormed.bodyNames_nodup {f : Func} (hwf : WellFormed f) :
    (f.body.map Operation.name).Nodup :=
  (Func.names_nodup hwf.nodup).sublist (by rw [Layout.names_eq]; exact sublist_append_left _ _)

/-- A well-formed block is in SSA order for every way of reading its ops within their
    operands. -/
theorem WellFormed.ssaOrdered {f : Func} (hwf : WellFormed f) {reads : Operation → List Value}
    (hreads : ∀ op, ∀ v ∈ reads op, v ∈ op.deepOperands) : SSAOrdered reads f.body := by
  have hsub : f.body.map Operation.name <+ f.names := by
    rw [Layout.names_eq]; exact sublist_append_left _ _
  intro pre op post e v hv ⟨d, hd, hvd⟩
  have hop : op ∈ f.ops := mem_append_left _ (by rw [e]; simp)
  have hbef : Before f.names d op.name := hwf.dep op.name d
    ⟨v, by rw [Func.opOf_eq_of_mem hwf.nodup hop]; exact hreads op v hv, hvd⟩
    (mem_map_of_mem _ hop) (Layout.mem_names_of_mem_body hd)
  exact ⟨d, mem_pre_of_before e hwf.bodyNames_nodup
    (hbef.of_sublist hsub (Func.names_nodup hwf.nodup) hd (by rw [e]; simp)), hvd⟩

theorem freeOperands_subset (op : Operation) : ∀ v ∈ op.freeOperands, v ∈ op.deepOperands :=
  fun _ h => (mem_filter.1 h).1

theorem callReads_subset (base : Nat) (fns : List Func) (op : Operation) :
    ∀ v ∈ callReads base fns op, v ∈ op.deepOperands := by
  intro v hv
  unfold callReads at hv
  split at hv
  · exact Operation.mem_walk_operands (Operation.mem_walk_self op) hv
  · exact (mem_filter.1 hv).1

theorem definedIn_eq_true_iff {names : List Nat} {v : Value} :
    Operation.definedIn names v = true ↔ DefinedBy names v :=
  Operation.definedIn_iff names v

theorem Operation.defines_arg (op : Operation) (i : Nat) : op.defines (.arg i) = false := by
  simp [Operation.defines, Value.getDefiningOp]

section Run

variable {α : Type} {I : Interp α}

/-- In the run of a well-formed function, every op computes its results from the final
    values. -/
theorem WellFormed.evalBody_consistent {f : Func} (hwf : WellFormed f) (env : Value → α) :
    ∀ op ∈ f.body, ∀ i, plainSem I op (evalBody (plainSem I) f.body env) i =
      evalBody (plainSem I) f.body env (.result op.name i) :=
  GraphClustering.evalBody_consistent (plainSem_readsOnly I f.body)
    (hwf.ssaOrdered freeOperands_subset) hwf.bodyNames_nodup env

/-- A run of a well-formed function leaves alone a value an op nested in one of its ops
    defines: nested ops have no handle among the block's. -/
theorem WellFormed.evalBody_of_nested {sem : Operation → (Value → α) → Nat → α} {f : Func}
    (hwf : WellFormed f) {o : Operation} (ho : o ∈ f.ops) {w : Value} (hdef : o.defines w = true)
    (hne : w.getDefiningOp ≠ some o.name) (env : Value → α) :
    evalBody sem f.body env w = env w := by
  obtain ⟨w', hw', hw'd⟩ := any_eq_true.1 hdef
  rw [beq_iff_eq] at hw'd
  have hnot := Func.not_mem_names_of_nested hwf.nodup ho hw' fun e => hne (e ▸ hw'd)
  refine evalBody_of_not_defined (fun ⟨d, hd, hwd⟩ => hnot ?_) env
  rw [hw'd, Option.some.injEq] at hwd
  exact hwd ▸ Layout.mem_names_of_mem_body hd

/-- `W` on the values the ops `names` define, `env` on the others: where a run of a block
    with handles `names` from `env` ends when each op computes the values `W` gives. -/
def overlay (names : List Nat) (W env : Value → α) (v : Value) : α :=
  if Operation.definedIn names v then W v else env v

theorem overlay_of_defined {names : List Nat} {v : Value} (h : DefinedBy names v)
    (W env : Value → α) : overlay names W env v = W v :=
  if_pos (definedIn_eq_true_iff.2 h)

theorem overlay_of_not_defined {names : List Nat} {v : Value} (h : ¬DefinedBy names v)
    (W env : Value → α) : overlay names W env v = env v :=
  if_neg fun h' => h (definedIn_eq_true_iff.1 h')

/-- A run of a block in SSA order whose ops each compute the values `W` gives their results
    ends at the overlay of `W` on the start. -/
theorem evalBody_eq_overlay {sem : Operation → (Value → α) → Nat → α}
    {reads : Operation → List Value} {L : List Operation} {W env : Value → α}
    (hread : ReadsOnly sem reads L) (hssa : SSAOrdered reads L)
    (hnd : (L.map Operation.name).Nodup)
    (hcons : ∀ op ∈ L, ∀ i, sem op (overlay (L.map Operation.name) W env) i =
      W (.result op.name i)) :
    evalBody sem L env = overlay (L.map Operation.name) W env :=
  evalBody_eq_of_consistent hread hssa hnd (fun op hop i => (hcons op hop i).trans
      (overlay_of_defined (v := .result op.name i) ⟨op.name, mem_map_of_mem _ hop, rfl⟩ W env).symm)
    fun _ hv => (overlay_of_not_defined hv W env).symm

namespace Layout

variable {g : Func} {retName : Nat} {dupOutputs : Bool} {mds : List FunctionMetadata}

theorem opOf_mem_body (hl : Layout g retName dupOutputs mds) {md : FunctionMetadata}
    (hmd : md ∈ mds) {u : Nat} (hu : u ∈ md.ops) : g.opOf u ∈ g.body :=
  Func.opOf_mem_body (hl.ops_body md hmd u hu)

/-- **A created function computes its entry's results.** Run on the values the entry's
    inputs have at the end of a run of `g`, it returns the values its results have there:
    each cloned op reads, through the arguments, the values the op reads in `g`. -/
theorem runFunc_createFunction [Inhabited α] (hl : Layout g retName dupOutputs mds)
    (hI : RespectsRenaming I)
    (args : List α) {md : FunctionMetadata} (hmd : md ∈ mds) :
    runFunc (plainSem I) (createFunction g retName md)
        (md.inputs.map (evalBody (plainSem I) g.body (argEnv args))) =
      md.results.map (evalBody (plainSem I) g.body (argEnv args)) := by
  set D := evalBody (plainSem I) g.body (argEnv args)
  set ρ := lookupOrDefault (md.inputs.enum.foldl (fun m p => (p.2, Value.arg p.1) :: m) [])
  have hwf := hl.wellFormed_createFunction hmd
  -- the clones rename only inputs, to arguments
  have hren : ∀ u ∈ md.ops, (g.opOf u).RenamesFree ρ := fun u hu v _ => by
    rcases lookupOrDefault_argMapping md.inputs v with ⟨i, hi, e⟩ | ⟨-, e⟩
    · have hdef := ((hl.inputs md hmd v).1 (getElem?_mem hi)).2 u hu
      simp [ρ, e, hdef, Operation.defines_arg]
    · simp [ρ, e]
  set E := argEnv (md.inputs.map D)
  -- a clone reads, through the arguments, what the op reads in `g`
  have hagree : ∀ u ∈ md.ops, ∀ w ∈ (g.opOf u).freeOperands, overlay md.ops D E (ρ w) = D w := by
    intro u hu w hw
    have hwd : w ∈ (g.opOf u).deepOperands := (mem_filter.1 hw).1
    rcases lookupOrDefault_argMapping md.inputs w with ⟨i, hi, e⟩ | ⟨hwi, e⟩
    · rw [show ρ w = _ from e, overlay_of_not_defined (v := .arg i) (fun ⟨_, _, h⟩ => by cases h)]
      show argEnv (md.inputs.map D) (.arg i) = D w
      simp only [argEnv, getD_eq_getElem?_getD, getElem?_map, hi, Option.map_some',
        Option.getD_some]
    · rw [show ρ w = _ from e]
      by_cases hdef : DefinedBy md.ops w
      · exact overlay_of_defined hdef _ _
      rw [overlay_of_not_defined hdef]
      -- `w` is defined inside the entry, by an op nested in one of its ops
      obtain ⟨n, hn, hdefn⟩ : ∃ n ∈ md.ops, (g.opOf n).defines w = true := by
        by_contra hc
        exact hwi ((hl.inputs md hmd w).2 ⟨⟨u, hu, hwd⟩, fun n hn =>
          Bool.eq_false_iff.2 fun h => hc ⟨n, hn, h⟩⟩)
      have hDw : D w = argEnv args w := hl.wf.evalBody_of_nested
        (mem_append_left _ (hl.opOf_mem_body hmd hn)) hdefn
        (fun h => hdef ⟨n, hn, by rw [h, Func.opOf_name]⟩) _
      rw [hDw]
      -- a result, to which both starts give the default
      obtain ⟨w', -, hw'd⟩ := any_eq_true.1 hdefn
      cases w with
      | result c i => rfl
      | arg i => cases hw'd
  have hbn : (createFunction g retName md).body.map Operation.name = md.ops := by
    simp [createFunction, Function.comp_def, Operation.name_mapOperands]
  have hrun : evalBody (plainSem I) (createFunction g retName md).body E = overlay md.ops D E := by
    rw [← hbn]
    refine evalBody_eq_overlay (plainSem_readsOnly I _) (hwf.ssaOrdered freeOperands_subset)
      hwf.bodyNames_nodup fun op hop i => ?_
    obtain ⟨u, hu, rfl⟩ := mem_map.1 hop
    rw [hbn, plainSem_mapOperands hI (hren u hu),
      show plainSem I (g.opOf u) (overlay md.ops D E ∘ ρ) = plainSem I (g.opOf u) D from
        plainSem_readsOnly I [g.opOf u] _ (mem_singleton_self _) _ _
        fun w hw => hagree u hu w hw, hl.wf.evalBody_consistent _ _ (hl.opOf_mem_body hmd hu) i,
      Operation.name_mapOperands, Func.opOf_name]
  rw [runFunc, hrun]
  simp only [createFunction, Operation.operands_mk, map_map]
  refine map_congr_left fun r hr => ?_
  rw [Function.comp_apply, hl.lookupOrDefault_result hmd hr]
  obtain ⟨⟨n, hn, hrn⟩, -⟩ := (hl.results md hmd r).1 hr
  exact overlay_of_defined ⟨n, hn, hrn⟩ _ _

end Layout

theorem map_eq_map_of_forall₂ {β γ : Type} {R : γ → β → Prop} {f : β → α} {h : γ → α} :
    ∀ {l₁ : List γ} {l₂ : List β}, Forall₂ R l₁ l₂ → (∀ a ∈ l₁, ∀ b, R a b → f b = h a) →
      l₂.map f = l₁.map h
  | _, _, .nil, _ => rfl
  | _, _, .cons e t, hR => by
    rw [map_cons, map_cons, hR _ (mem_cons_self _ _) _ e,
      map_eq_map_of_forall₂ t fun a ha => hR a (mem_cons_of_mem _ ha)]

theorem callSem_of_lt [Inhabited α] {base : Nat} {fns : List Func} {op : Operation}
    (h : op.name < base) (env : Value → α) : callSem I base fns op env = plainSem I op env := by
  unfold callSem
  split
  · exact if_neg (Nat.not_le.2 h)
  · rfl

theorem callSem_call [Inhabited α] {base k : Nat} {fns : List Func} {fn : Func}
    (hk : fns[k]? = some fn) (us : List Value) (env : Value → α) :
    callSem I base fns (.mk (base + k) us [] []) env =
      fun i => (runFunc (plainSem I) fn (us.map env)).getD i default := by
  simp [callSem, hk]

/-! ## The values of the rewritten function -/

/-- The values of a run of the rewritten function, read off the values `D` of a run of `g`:
    result `i` of the call `base + k` is result `i` of entry `k`; the other values are those
    of `g`. -/
def callValues [Inhabited α] (base : Nat) (mds : List FunctionMetadata) (D : Value → α) :
    Value → α
  | .result c i => if base ≤ c then
      ((mds[c - base]?).map fun md => (md.results.map D).getD i default).getD default
    else D (.result c i)
  | .arg i => D (.arg i)

theorem callValues_of_lt [Inhabited α] {base c : Nat} (mds : List FunctionMetadata)
    (D : Value → α) (h : c < base) (i : Nat) :
    callValues base mds D (.result c i) = D (.result c i) :=
  if_neg (Nat.not_le.2 h)

theorem callValues_call [Inhabited α] {base k : Nat} {mds : List FunctionMetadata}
    {md : FunctionMetadata} (D : Value → α) (hk : mds[k]? = some md) (i : Nat) :
    callValues base mds D (.result (base + k) i) = (md.results.map D).getD i default := by
  simp [callValues, hk]

namespace Rewritten

variable {g : Func} {retName : Nat} {dupOutputs : Bool} {mds : List FunctionMetadata} {g₂ : Func}

/-- An op kept outside the entries has its outputs replaced by results of calls, which its
    nested ops do not define. -/
theorem renamesFree_kept (hl : Layout g retName dupOutputs mds) {x : Operation}
    (hx : x ∈ keptOps g mds) : x.RenamesFree (callValue (retName + 1) mds) := by
  obtain ⟨hxb, hxm⟩ := mem_keptOps.1 hx
  have hxg : x ∈ g.ops := mem_append_left _ hxb
  intro v _
  rcases replaced_callValue (retName + 1) mds v with ⟨e, -⟩ | ⟨k, md, i, hk, hi, e⟩
  · rw [e]; exact ⟨fun _ => rfl, rfl⟩
  · have hmd := getElem?_mem hk
    obtain ⟨⟨n, hn, hvn⟩, -⟩ := (hl.results md hmd v).1 (getElem?_mem hi)
    have hxv : x.defines v = false := Bool.eq_false_iff.2 fun h => by
      obtain ⟨w', hw', hd⟩ := any_eq_true.1 h
      rw [beq_iff_eq, hvn, Option.some.injEq] at hd
      by_cases hw'x : w' = x
      · exact hxm md hmd (hw'x ▸ hd ▸ hn)
      · exact Func.not_mem_names_of_nested hl.wf.nodup hxg hw' hw'x
          (hd ▸ Layout.mem_names_of_mem_body (hl.ops_body md hmd n hn))
    have hxr : x.defines (.result (retName + 1 + k) i) = false := Bool.eq_false_iff.2 fun h => by
      obtain ⟨w', hw', hd⟩ := any_eq_true.1 h
      simp only [Value.getDefiningOp, beq_iff_eq, Option.some.injEq] at hd
      have := hl.fresh w' (Func.walk_subset hxg hw')
      omega
    rw [e, hxv, hxr]
    exact ⟨fun h => absurd h Bool.false_ne_true, rfl⟩

section Values

variable [Inhabited α] (hl : Layout g retName dupOutputs mds) (hr : Rewritten g retName mds g₂)
  (args : List α)
include hl hr

/-- **A replaced operand has, in the rewritten function, the value the operand has in
    `g`,** when the operand is one of an op of `g` and, if an entry defines it, an output of
    that entry. -/
theorem overlay_replaced {w u : Value} (hrep : Replaced (retName + 1) mds w u) {o : Operation}
    (ho : o ∈ g.ops) (hwo : w ∈ o.deepOperands)
    (hvis : ∀ md ∈ mds, ∀ n ∈ md.ops, w.getDefiningOp = some n → w ∈ md.results) :
    overlay (g₂.body.map Operation.name)
        (callValues (retName + 1) mds (evalBody (plainSem I) g.body (argEnv args)))
        (argEnv args) u =
      evalBody (plainSem I) g.body (argEnv args) w := by
  rcases hrep with ⟨rfl, hall⟩ | ⟨k, md, i, hk, hi, rfl⟩
  · by_cases hd : DefinedBy (g₂.body.map Operation.name) u
    · -- a kept op defines it, with a handle below the calls'
      cases u with
      | arg j => obtain ⟨_, _, h⟩ := hd; cases h
      | result c i =>
        rw [overlay_of_defined hd, callValues_of_lt _ _
          (Nat.lt_succ_of_lt (hl.lt_of_mem_deepOperands ho hwo rfl))]
    -- no op of `g` defines it: a kept op would be in the rewritten body, and an op of an
    -- entry would make it an output
    have hg : ¬DefinedBy (g.body.map Operation.name) u := fun ⟨d, hdb, e⟩ => by
      obtain ⟨x, hxb, rfl⟩ := mem_map.1 hdb
      by_cases hxk : ∀ md ∈ mds, x.name ∉ md.ops
      · exact hd ⟨x.name, hr.mem_body_names.2
          (Or.inr (mem_map_of_mem _ (mem_keptOps.2 ⟨hxb, hxk⟩))), e⟩
      · simp only [not_forall, not_not] at hxk
        obtain ⟨md, hmd, hxmd⟩ := hxk
        exact hall md hmd (hvis md hmd _ hxmd e)
    rw [overlay_of_not_defined hd, evalBody_of_not_defined hg]
  · -- the result of a call stands for its entry's result
    rw [overlay_of_defined (v := .result (retName + 1 + k) i) ⟨_, hr.mem_body_names.2
      (Or.inl ⟨k, (getElem?_eq_some_iff.1 hk).1, rfl⟩), rfl⟩, callValues_call _ hk]
    simp [getD_eq_getElem?_getD, getElem?_map, hi]

/-- **Each op of the rewritten body computes the values `callValues` gives its results:** a
    call runs its entry's function on the values of the entry's inputs, and a kept op computes
    what it computes in `g`. -/
theorem callSem_consistent (hI : RespectsRenaming I) : ∀ op ∈ g₂.body, ∀ i,
    callSem I (retName + 1) (createFunctions g retName mds) op
        (overlay (g₂.body.map Operation.name)
          (callValues (retName + 1) mds (evalBody (plainSem I) g.body (argEnv args)))
          (argEnv args)) i =
      callValues (retName + 1) mds (evalBody (plainSem I) g.body (argEnv args))
        (.result op.name i) := by
  obtain ⟨cs, -, hcs, hperm⟩ := hr.calls
  intro op hop i
  rcases mem_append.1 (hperm.mem_iff.1 hop) with hc | hx
  · obtain ⟨k, md, us, hk, rfl, hus⟩ := hcs op hc
    have hmd := getElem?_mem hk
    rw [callSem_call (show (createFunctions g retName mds)[k]? = some (createFunction g retName md)
        by simp [createFunctions, hk]), map_eq_map_of_forall₂ hus fun w hw u hwu => ?_,
      hl.runFunc_createFunction hI args hmd, Operation.name_mk, callValues_call _ hk]
    obtain ⟨⟨y, hy, hwy⟩, -⟩ := (hl.inputs md hmd w).1 hw
    exact hr.overlay_replaced hl args hwu
      (Func.opOf_mem (Layout.mem_names_of_mem_body (hl.ops_body md hmd y hy))) hwy
      fun md' hmd' n hn hwn => hl.mem_results_of_mem_inputs hmd hmd' hw hn hwn
  · obtain ⟨x, hxk, rfl⟩ := mem_map.1 hx
    obtain ⟨hxb, hxm⟩ := mem_keptOps.1 hxk
    have hxg : x ∈ g.ops := mem_append_left _ hxb
    have hxlt : x.name < retName + 1 :=
      Nat.lt_succ_of_lt (hl.name_lt_of_mem_body (mem_map_of_mem _ hxb))
    rw [callSem_of_lt (by rwa [Operation.name_mapOperands]),
      plainSem_mapOperands hI (renamesFree_kept hl hxk), Operation.name_mapOperands,
      callValues_of_lt _ _ hxlt, ← hl.wf.evalBody_consistent _ x hxb i]
    refine congrFun (plainSem_readsOnly I g.body x hxb _ _ fun v hv => ?_) i
    have hvx := freeOperands_subset x v hv
    exact hr.overlay_replaced hl args (replaced_callValue _ mds v) hxg hvx fun md hmd n hn hvn =>
      (hl.results md hmd v).2 ⟨⟨n, hn, hvn⟩, x, hxg, hxm md hmd, hvx⟩

/-- **The rewritten function computes what `g` computes.** For every interpretation of the
    ops that gives an op and its copy with renamed free operands the same results, and every
    argument list, the rewritten function, each call run as the body of the function it
    calls, returns what `g` returns. -/
theorem runFunc_eq (hI : RespectsRenaming I) :
    runFunc (callSem I (retName + 1) (createFunctions g retName mds)) g₂ args =
      runFunc (plainSem I) g args := by
  obtain ⟨T, hT, hTR⟩ := hr.terminator
  have hwf₂ := hr.wellFormed hl
  have htg : g.terminator ∈ g.ops := mem_append_right _ (mem_singleton_self _)
  rw [runFunc, runFunc, evalBody_eq_overlay (callSem_readsOnly I _ _ _)
    (hwf₂.ssaOrdered (callReads_subset _ _)) hwf₂.bodyNames_nodup
    (hr.callSem_consistent hl args hI), hT, Operation.operands_withOperands]
  refine map_eq_map_of_forall₂ hTR fun w hw u hwu => ?_
  have hwt : w ∈ g.terminator.deepOperands :=
    Operation.mem_walk_operands (Operation.mem_walk_self _) hw
  exact hr.overlay_replaced hl args hwu htg hwt fun md hmd n hn hwn =>
    (hl.results md hmd w).2 ⟨⟨n, hn, hwn⟩, g.terminator, htg, hl.terminator_not_mem_ops hmd, hwt⟩

end Values

end Rewritten

end Run

end GraphClustering
