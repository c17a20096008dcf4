/-
  What a function computes, for the correctness of the rewrite.

  An op is a black box: its results are a function of the op (its nested ops included)
  and of the values of its free operands, those not defined inside it. The pass only
  renames free operands, so an interpretation is asked to give the same results to an op
  and to its copy with renamed free operands (`RespectsRenaming`).

  * `Operation.mapOperands` lemmas: the walk, the handles and the operands of a renamed op;
  * `evalBody`: the ops of a block run in order, each binding its results;
  * `evalBody_consistent`: after a run, every op's results are what the op computes on the
    final values, when the ops are in SSA order;
  * `evalBody_eq_of_consistent`: conversely, an assignment of values that every op agrees
    with, and that agrees with the start on what the block does not define, is the run.
-/
import GraphClustering.Rewrite

namespace GraphClustering

open List

/-! ## Renaming operands -/

namespace Operation

mutual
theorem walk_mapOperands (g : Value → Value) :
    ∀ op : Operation, (op.mapOperands g).walk = op.walk.map (·.mapOperands g)
  | .mk n vs as rs => by
    rw [mapOperands, walk_mk, walk_mk, walkList_mapOperandsList g rs, map_cons, mapOperands]
theorem walkList_mapOperandsList (g : Value → Value) :
    ∀ ops : List Operation, walkList (mapOperandsList g ops) = (walkList ops).map (·.mapOperands g)
  | [] => by simp [mapOperandsList]
  | op :: ops => by
    rw [mapOperandsList, walkList_cons, walkList_cons, walk_mapOperands g op,
      walkList_mapOperandsList g ops, map_append]
end

@[simp] theorem name_mapOperands (g : Value → Value) (op : Operation) :
    (op.mapOperands g).name = op.name := by
  cases op; rfl

@[simp] theorem operands_mapOperands (g : Value → Value) (op : Operation) :
    (op.mapOperands g).operands = op.operands.map g := by
  cases op; rfl

theorem walk_names_mapOperands (g : Value → Value) (op : Operation) :
    (op.mapOperands g).walk.map name = op.walk.map name := by
  simp [walk_mapOperands, Function.comp_def]

theorem deepOperands_mapOperands (g : Value → Value) (op : Operation) :
    (op.mapOperands g).deepOperands = op.deepOperands.map g := by
  simp [deepOperands, walk_mapOperands, flatMap_map, map_flatMap]

theorem mapOperands_mapOperands (g h : Value → Value) :
    ∀ op : Operation, (op.mapOperands g).mapOperands h = op.mapOperands (h ∘ g)
  | .mk n vs as rs => by
    simp only [mapOperands, map_map, mapOperandsList_mapOperandsList g h rs]
where
  mapOperandsList_mapOperandsList (g h : Value → Value) :
      ∀ ops : List Operation,
        mapOperandsList h (mapOperandsList g ops) = mapOperandsList (h ∘ g) ops
    | [] => rfl
    | op :: ops => by
      simp only [mapOperandsList, mapOperands_mapOperands g h op,
        mapOperandsList_mapOperandsList g h ops]

/-- `v` is a result of `op` or of an op nested in it. -/
def defines (op : Operation) (v : Value) : Bool :=
  op.walk.any fun w => v.getDefiningOp == some w.name

/-- The operands of `op` and of the ops nested in it that are not defined inside `op`: what
    `op` reads from the block. -/
def freeOperands (op : Operation) : List Value := op.deepOperands.filter fun v => !op.defines v

theorem defines_mapOperands (g : Value → Value) (op : Operation) (v : Value) :
    (op.mapOperands g).defines v = op.defines v := by
  simp [defines, walk_mapOperands, Function.comp_def]

/-- `g` renames only free operands of `op`, to values not defined inside `op`. -/
def RenamesFree (op : Operation) (g : Value → Value) : Prop :=
  ∀ v ∈ op.deepOperands, (op.defines v = true → g v = v) ∧ op.defines (g v) = op.defines v

theorem freeOperands_mapOperands {op : Operation} {g : Value → Value} (hg : op.RenamesFree g) :
    (op.mapOperands g).freeOperands = op.freeOperands.map g := by
  simp only [freeOperands, deepOperands_mapOperands, defines_mapOperands, filter_map]
  congr 1
  exact filter_congr fun v hv => by simp [Function.comp_def, (hg v hv).2]

end Operation

/-! ## Running a block -/

variable {α : Type}

/-- The values after the op `n` has bound its results to `r`. -/
def bindResults (n : Nat) (r : Nat → α) (env : Value → α) : Value → α
  | .result m i => if m = n then r i else env (.result m i)
  | v => env v

/-- The ops run in order, each binding its results to what `sem` says it computes. -/
def evalBody (sem : Operation → (Value → α) → Nat → α) :
    List Operation → (Value → α) → Value → α
  | [], env => env
  | op :: ops, env => evalBody sem ops (bindResults op.name (sem op env) env)

/-- The values at the start of a function called with `args`. -/
def argEnv [Inhabited α] (args : List α) : Value → α
  | .arg i => args.getD i default
  | _ => default

/-- What the function `f` returns on `args`. -/
def runFunc [Inhabited α] (sem : Operation → (Value → α) → Nat → α) (f : Func)
    (args : List α) : List α :=
  f.terminator.operands.map (evalBody sem f.body (argEnv args))

/-- `v` is a result of one of the ops with handles `names`. -/
def DefinedBy (names : List Nat) (v : Value) : Prop := ∃ d ∈ names, v.getDefiningOp = some d

section Eval

variable {sem : Operation → (Value → α) → Nat → α} {reads : Operation → List Value}

@[simp] theorem bindResults_result_self (n : Nat) (r : Nat → α) (env : Value → α) (i : Nat) :
    bindResults n r env (.result n i) = r i := by
  simp [bindResults]

theorem bindResults_of_not_defined {n : Nat} {v : Value} (h : v.getDefiningOp ≠ some n)
    (r : Nat → α) (env : Value → α) : bindResults n r env v = env v := by
  cases v with
  | result m i =>
    show (if m = n then _ else _) = _
    exact if_neg fun e => h (by rw [e]; rfl)
  | arg i => rfl

theorem evalBody_append (l₁ l₂ : List Operation) (env : Value → α) :
    evalBody sem (l₁ ++ l₂) env = evalBody sem l₂ (evalBody sem l₁ env) := by
  induction l₁ generalizing env with
  | nil => rfl
  | cons op ops ih => exact ih _

/-- A run leaves alone what no op of the block defines. -/
theorem evalBody_of_not_defined {L : List Operation} {v : Value}
    (hv : ¬DefinedBy (L.map Operation.name) v) (env : Value → α) :
    evalBody sem L env v = env v := by
  induction L generalizing env with
  | nil => rfl
  | cons op ops ih =>
    simp only [DefinedBy, map_cons, mem_cons, exists_eq_or_imp, not_or] at hv
    rw [evalBody, ih hv.2, bindResults_of_not_defined hv.1]

/-- `sem op` reads only the values `reads op`. -/
def ReadsOnly (sem : Operation → (Value → α) → Nat → α) (reads : Operation → List Value)
    (L : List Operation) : Prop :=
  ∀ op ∈ L, ∀ env env' : Value → α, (∀ v ∈ reads op, env v = env' v) → sem op env = sem op env'

/-- Every value an op of `L` reads and an op of `L` defines is defined earlier. -/
def SSAOrdered (reads : Operation → List Value) (L : List Operation) : Prop :=
  ∀ pre op post, L = pre ++ op :: post → ∀ v ∈ reads op,
    DefinedBy (L.map Operation.name) v → DefinedBy (pre.map Operation.name) v

theorem SSAOrdered.tail {op : Operation} {L : List Operation} (h : SSAOrdered reads (op :: L))
    (hnd : ((op :: L).map Operation.name).Nodup) : SSAOrdered reads L := by
  intro pre o post e v hv ⟨d, hd, hvd⟩
  obtain ⟨d', hd', hvd'⟩ := h (op :: pre) o post (by rw [e]; rfl) v hv
    ⟨d, mem_cons_of_mem _ hd, hvd⟩
  rw [hvd] at hvd'
  cases hvd'
  rw [map_cons] at hd'
  rcases mem_cons.1 hd' with rfl | hpre
  · -- `d` is the first op's handle, but it is also in `L`
    exact absurd hd (nodup_cons.1 hnd).1
  · exact ⟨d, hpre, hvd⟩

theorem SSAOrdered.head {op : Operation} {L : List Operation} (h : SSAOrdered reads (op :: L))
    {v : Value} (hv : v ∈ reads op) : ¬DefinedBy ((op :: L).map Operation.name) v := fun hd =>
  let ⟨_, hd', _⟩ := h [] op L rfl v hv hd
  not_mem_nil _ hd'

/-- **A run agrees with every consistent assignment.** If every op of an SSA-ordered block
    computes, on `V`, the values `V` gives its results, and the start agrees with `V` on
    what the block does not define, then the run ends in `V`. -/
theorem evalBody_eq_of_consistent {L : List Operation} {V env : Value → α}
    (hread : ReadsOnly sem reads L) (hssa : SSAOrdered reads L)
    (hnd : (L.map Operation.name).Nodup)
    (hcons : ∀ op ∈ L, ∀ i, sem op V i = V (.result op.name i))
    (henv : ∀ v, ¬DefinedBy (L.map Operation.name) v → env v = V v) :
    evalBody sem L env = V := by
  induction L generalizing env with
  | nil => exact funext fun v => henv v fun ⟨_, h, _⟩ => not_mem_nil _ h
  | cons op ops ih =>
    have hop : sem op env = sem op V :=
      hread op (mem_cons_self _ _) env V fun v hv => henv v (hssa.head hv)
    refine ih (fun o ho => hread o (mem_cons_of_mem _ ho)) (hssa.tail hnd) (nodup_cons.1 hnd).2
      (fun o ho => hcons o (mem_cons_of_mem _ ho)) fun v hv => ?_
    by_cases hvo : v.getDefiningOp = some op.name
    · cases v with
      | result m i =>
        cases hvo
        rw [bindResults_result_self, hop, hcons op (mem_cons_self _ _)]
      | arg i => cases hvo
    · rw [bindResults_of_not_defined hvo]
      refine henv v fun ⟨d, hd, hvd⟩ => ?_
      rw [map_cons] at hd
      rcases mem_cons.1 hd with rfl | hd
      · exact hvo hvd
      · exact hv ⟨d, hd, hvd⟩

/-- **A run is consistent.** On an SSA-ordered block with distinct handles, each op computes,
    on the values the run ends with, the values the run gave its results. -/
theorem evalBody_consistent {L : List Operation} (hread : ReadsOnly sem reads L)
    (hssa : SSAOrdered reads L) (hnd : (L.map Operation.name).Nodup) (env : Value → α) :
    ∀ op ∈ L, ∀ i, sem op (evalBody sem L env) i = evalBody sem L env (.result op.name i) := by
  intro op hop i
  obtain ⟨pre, post, rfl⟩ := append_of_mem hop
  have hnd' := hnd
  simp only [map_append, map_cons] at hnd'
  have hpost : op.name ∉ post.map Operation.name := (nodup_cons.1 (nodup_append.1 hnd').2.1).1
  set E := evalBody sem pre env
  have hfin : ∀ v, ¬DefinedBy ((op :: post).map Operation.name) v →
      evalBody sem (pre ++ op :: post) env v = E v := fun v hv => by
    rw [evalBody_append, evalBody, evalBody_of_not_defined (fun h => hv ?_),
      bindResults_of_not_defined]
    · exact fun e => hv ⟨op.name, mem_cons_self _ _, e⟩
    · obtain ⟨d, hd, e⟩ := h
      exact ⟨d, mem_cons_of_mem _ hd, e⟩
  have hres : evalBody sem (pre ++ op :: post) env (.result op.name i) = sem op E i := by
    rw [evalBody_append, evalBody, evalBody_of_not_defined, bindResults_result_self]
    rintro ⟨d, hd, e⟩
    simp only [Value.getDefiningOp, Option.some.injEq] at e
    exact hpost (e ▸ hd)
  rw [hres]
  refine congrFun (hread op (mem_append_right _ (mem_cons_self _ _)) _ _ fun v hv => ?_) i
  refine hfin v fun hd => ?_
  -- a value `op` reads that `op` or a later op defines is defined before `op`
  obtain ⟨d, hdpre, e⟩ := hssa pre op post rfl v hv (by
    obtain ⟨d, hd, e⟩ := hd
    exact ⟨d, by simp only [map_append, mem_append]; exact Or.inr hd, e⟩)
  obtain ⟨d', hd', e'⟩ := hd
  rw [e, Option.some.injEq] at e'
  subst e'
  rw [map_cons] at hd'
  exact disjoint_of_nodup_append hnd' hdpre hd'

end Eval

/-! ## Interpretations -/

/-- An interpretation of the ops: result `i` of an op on the values of its free operands. -/
abbrev Interp (α : Type) := Operation → List α → Nat → α

/-- `I` gives an op and its copy with renamed free operands the same results. -/
def RespectsRenaming (I : Interp α) : Prop :=
  ∀ op g, Operation.RenamesFree op g → I (op.mapOperands g) = I op

/-- An op of the source function computes `I` on its free operands. -/
def plainSem (I : Interp α) (op : Operation) (env : Value → α) : Nat → α :=
  I op (op.freeOperands.map env)

/-- The rewritten function: the op with handle `base + k` is `func.call` of the `k`-th
    created function, run on the values of its operands. -/
def callSem [Inhabited α] (I : Interp α) (base : Nat) (fns : List Func) (op : Operation)
    (env : Value → α) : Nat → α :=
  match fns[op.name - base]? with
  | some fn => if base ≤ op.name then
      fun i => (runFunc (plainSem I) fn (op.operands.map env)).getD i default
    else plainSem I op env
  | none => plainSem I op env

/-- What `callSem` reads of an op: a call's operands, else its free operands. -/
def callReads (base : Nat) (fns : List Func) (op : Operation) : List Value :=
  if base ≤ op.name ∧ op.name - base < fns.length then op.operands else op.freeOperands

theorem plainSem_readsOnly (I : Interp α) (L : List Operation) :
    ReadsOnly (plainSem I) Operation.freeOperands L := fun op _ env env' h => by
  simp only [plainSem, map_congr_left h]

theorem callSem_readsOnly [Inhabited α] (I : Interp α) (base : Nat) (fns : List Func)
    (L : List Operation) : ReadsOnly (callSem I base fns) (callReads base fns) L :=
  fun op _ env env' h => by
    unfold callSem
    unfold callReads at h
    cases hk : fns[op.name - base]? with
    | none =>
      have : ¬(base ≤ op.name ∧ op.name - base < fns.length) := fun ⟨_, hl⟩ => by
        simp [getElem?_eq_getElem hl] at hk
      simp only [this, if_false] at h
      simp only [plainSem, map_congr_left h]
    | some fn =>
      by_cases hb : base ≤ op.name
      · have hl : op.name - base < fns.length := (getElem?_eq_some_iff.1 hk).1
        simp only [hb, hl, and_self, if_true] at h
        simp only [hb, if_true, map_congr_left h]
      · simp only [hb, false_and, if_false] at h
        simp only [hb, if_false, plainSem, map_congr_left h]

theorem plainSem_mapOperands {I : Interp α} (hI : RespectsRenaming I) {op : Operation}
    {g : Value → Value} (hg : op.RenamesFree g) (env : Value → α) :
    plainSem I (op.mapOperands g) env = plainSem I op (env ∘ g) := by
  simp only [plainSem, hI op g hg, Operation.freeOperands_mapOperands hg, map_map]

end GraphClustering
