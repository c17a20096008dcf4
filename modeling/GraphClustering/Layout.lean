/-
  `createCalls` and the erase loop on the metadata the directed strategies leave: entries
  whose ops are non-empty, disjoint, contiguous ranges of the body, with the inputs and
  outputs `getInputsOfCluster` and `getOutputsOfCluster` are asked to compute.

  * `Layout g retName dupOutputs mds`: those conditions, for the function `g` with its
    block in the strategy's order, and handles below `retName`;
  * `slot`: where an op of the rewritten function stands in the block of `g`; the call of
    an entry stands right before the entry's last op;
  * `CallsInv`: what holds after the calls of the entries `done` (the calls, the operands
    they and the other ops were given, the order by `slot`, the terminator, the mapping);
    `Layout.createCallsFrom` carries it from one entry to the next;
  * `Layout.eraseOps`: the erase loop then erases every op of the entries, each with no use
    left.
-/
import Mathlib.Data.List.Pairwise
import GraphClustering.CreateCalls

namespace GraphClustering

open List

/-- The metadata `mds` of the function `g` (its block in the strategy's order), as the
    directed strategies leave them: `g` is well formed, its terminator has no regions, and
    its handles, and those its operands name, are below `retName`; the entries' ops are
    non-empty, pairwise disjoint, contiguous ranges of the body; the inputs are the values
    used by the ops (or by ops nested in them) and defined by none of them; the results
    are the values the ops define that an op outside them uses; with `dupOutputs`, a
    returned result occurs as often as the terminator returns it. -/
structure Layout (g : Func) (retName : Nat) (dupOutputs : Bool)
    (mds : List FunctionMetadata) : Prop where
  wf : WellFormed g
  ret : g.terminator.regions = []
  fresh : ∀ w ∈ g.walk, w.name < retName
  closed : ∀ w ∈ g.walk, ∀ v ∈ w.operands, ∀ c i, v = .result c i → c < retName
  ops_ne : ∀ md ∈ mds, md.ops ≠ []
  ops_body : ∀ md ∈ mds, ∀ n ∈ md.ops, n ∈ g.body.map Operation.name
  disjoint : mds.Pairwise (Disjoint on FunctionMetadata.ops)
  contig : ∀ md ∈ mds, md.ops <:+: g.names
  inputs : ∀ md ∈ mds, ∀ v, v ∈ md.inputs ↔
    (∃ n ∈ md.ops, v ∈ (g.opOf n).deepOperands) ∧ ∀ n ∈ md.ops, (g.opOf n).defines v = false
  results : ∀ md ∈ mds, ∀ v, v ∈ md.results ↔
    (∃ n ∈ md.ops, v.getDefiningOp = some n) ∧
      ∃ o ∈ g.ops, o.name ∉ md.ops ∧ v ∈ o.deepOperands
  counts : dupOutputs = true → ∀ md ∈ mds, ∀ v ∈ md.results, v ∈ g.terminator.operands →
    md.results.count v = g.terminator.operands.count v

/-- The last op of entry `k`, before which its call goes. -/
def anchorOf (mds : List FunctionMetadata) (k : Nat) : Nat :=
  ((mds[k]?).bind fun md => md.ops.getLast?).getD 0

/-- Where the op with handle `n` of the rewritten function stands in the block of `g`:
    an op of `g` at twice its position plus one, the call `base + k` at twice the position
    of entry `k`'s last op. -/
def slot (g : Func) (base : Nat) (mds : List FunctionMetadata) (n : Nat) : Nat :=
  if base ≤ n then 2 * g.names.indexOf (anchorOf mds (n - base)) else 2 * g.names.indexOf n + 1

/-- A call of one of the entries `done`: handle `base + k` for entry `k`, no regions, and
    operands standing for the entry's inputs. -/
def CallOf (base : Nat) (done : List FunctionMetadata) (c : Operation) : Prop :=
  ∃ k md us, done[k]? = some md ∧ c = .mk (base + k) us [] [] ∧
    Forall₂ (Replaced base done) md.inputs us

/-- What holds of `g'` and `mapping` after `createCalls` has handled the entries `done`:
    the body is the calls of `done` and the ops of `g` with the outputs of `done` replaced,
    in the order of `slot`; the terminator's operands stand for those of `g`. -/
structure CallsInv (g : Func) (base : Nat) (mds done : List FunctionMetadata) (g' : Func)
    (mapping : List (Value × Value)) : Prop where
  symName : g'.symName = g.symName
  calls : ∃ cs : List Operation, cs.map Operation.name = (range done.length).map (base + ·) ∧
    (∀ c ∈ cs, CallOf base done c) ∧
    g'.body ~ cs ++ g.body.map (·.mapOperands (callValue base done))
  sorted : (g'.body.map fun o => slot g base mds o.name).Pairwise (· < ·)
  terminator : ∃ T, g'.terminator = g.terminator.withOperands T ∧
    Forall₂ (Replaced base done) g.terminator.operands T
  mapping : MappingOf base done mapping

/-! ## List facts -/

theorem indexOf_lt_iff_before {l : List Nat} (hl : l.Nodup) {a b : Nat} (ha : a ∈ l)
    (hb : b ∈ l) : l.indexOf a < l.indexOf b ↔ Before l a b := by
  simpa [isBeforeInBlock] using isBeforeInBlock_iff hl ha hb

theorem pairwise_indexOf {l : List Nat} (hl : l.Nodup) :
    l.Pairwise fun a b => l.indexOf a < l.indexOf b :=
  pairwise_iff_getElem.2 fun i j hi hj hij => by rwa [indexOf_getElem hl, indexOf_getElem hl]

theorem forall₂_comp {α β γ : Type} {R : α → β → Prop} {S : β → γ → Prop}
    {U : α → γ → Prop} (hRS : ∀ a b c, R a b → S b c → U a c) :
    ∀ {l₁ : List α} {l₂ : List β} {l₃ : List γ}, Forall₂ R l₁ l₂ → Forall₂ S l₂ l₃ →
      Forall₂ U l₁ l₃
  | _, _, _, .nil, .nil => .nil
  | _, _, _, .cons h₁ t₁, .cons h₂ t₂ => .cons (hRS _ _ _ h₁ h₂) (forall₂_comp hRS t₁ t₂)

theorem count_eq_of_forall₂ {R : Value → Value → Prop} {v : Value}
    (hR : ∀ a b, R a b → (a = v ↔ b = v)) :
    ∀ {l₁ l₂ : List Value}, Forall₂ R l₁ l₂ → l₁.count v = l₂.count v
  | _, _, .nil => rfl
  | _, _, .cons (a := a) (b := b) h t => by
    rw [count_cons, count_cons, count_eq_of_forall₂ hR t]
    by_cases ha : a = v
    · simp [ha, (hR a b h).1 ha]
    · simp [ha, mt (hR a b h).2 ha]

/-- A value inserted into an increasing list where it fits keeps it increasing. -/
theorem pairwise_lt_insert {l₁ l₂ : List Nat} {b c : Nat}
    (h : (l₁ ++ b :: l₂).Pairwise (· < ·)) (h₁ : ∀ x ∈ l₁, x < c) (hcb : c < b) :
    (l₁ ++ c :: b :: l₂).Pairwise (· < ·) := by
  rw [pairwise_append] at h ⊢
  obtain ⟨hl₁, hbl, hcross⟩ := h
  refine ⟨hl₁, pairwise_cons.2 ⟨fun x hx => ?_, hbl⟩, fun x hx y hy => ?_⟩
  · rcases mem_cons.1 hx with rfl | hx
    · exact hcb
    · exact Nat.lt_trans hcb ((pairwise_cons.1 hbl).1 x hx)
  · rcases mem_cons.1 hy with rfl | hy
    · exact h₁ x hx
    · exact hcross x hx y hy

theorem exists_of_forall₂_mem {α β : Type} {R : α → β → Prop} :
    ∀ {l₁ : List α} {l₂ : List β}, Forall₂ R l₁ l₂ → ∀ {b}, b ∈ l₂ → ∃ a ∈ l₁, R a b
  | _, _, .nil, _, h => absurd h (not_mem_nil _)
  | _, _, .cons hab t, _, h => by
    rcases mem_cons.1 h with rfl | h
    · exact ⟨_, mem_cons_self _ _, hab⟩
    · obtain ⟨a, ha, h'⟩ := exists_of_forall₂_mem t h
      exact ⟨a, mem_cons_of_mem _ ha, h'⟩

theorem Operation.deepOperands_of_regions_nil {op : Operation} (h : op.regions = []) :
    op.deepOperands = op.operands := by
  cases op with
  | mk n vs as rs =>
    cases h
    simp [Operation.deepOperands, Operation.walk_mk, Operation.walkList_nil, Operation.operands]

theorem Operation.defines_of_getDefiningOp {op : Operation} {v : Value}
    (h : v.getDefiningOp = some op.name) : op.defines v = true :=
  any_eq_true.2 ⟨op, Operation.mem_walk_self op, by simp [h]⟩

theorem Func.opOf_eq_of_mem {f : Func} (hf : f.NamesNodup) {o : Operation} (h : o ∈ f.ops) :
    f.opOf o.name = o :=
  Func.eq_of_name_eq hf (Func.ops_subset_walk (Func.opOf_mem (mem_map_of_mem _ h)))
    (Func.ops_subset_walk h) (Func.opOf_name _)

/-- A replaced operand that is no call's result is the operand itself, an output of no
    entry. -/
theorem Replaced.eq_of_lt {base : Nat} {mds : List FunctionMetadata} {w v : Value}
    (h : Replaced base mds w v) (hv : ∀ c i, v = .result c i → c < base) :
    v = w ∧ ∀ md ∈ mds, w ∉ md.results := by
  rcases h with h | ⟨k, md, i, -, -, rfl⟩
  · exact h
  · have := hv _ _ rfl
    omega

/-! ## Consequences of the layout -/

namespace Layout

variable {g : Func} {retName : Nat} {dupOutputs : Bool} {mds : List FunctionMetadata}

theorem name_lt_of_mem_body (hl : Layout g retName dupOutputs mds) {n : Nat}
    (hn : n ∈ g.body.map Operation.name) : n < retName := by
  obtain ⟨o, ho, rfl⟩ := mem_map.1 hn
  exact hl.fresh o (Func.ops_subset_walk (mem_append_left _ ho))

theorem mem_names_of_mem_body {n : Nat} (hn : n ∈ g.body.map Operation.name) : n ∈ g.names := by
  simp only [Func.names, Func.ops, map_append, mem_append]
  exact Or.inl hn

/-- Every output is a result of an op of the body, so of no call. -/
theorem outputsBelow (hl : Layout g retName dupOutputs mds) : OutputsBelow (retName + 1) mds :=
  fun md hmd v hv c i e => by
    obtain ⟨⟨n, hn, hd⟩, -⟩ := (hl.results md hmd v).1 hv
    rw [e] at hd
    cases hd
    exact Nat.lt_succ_of_lt (hl.name_lt_of_mem_body (hl.ops_body md hmd c hn))

/-- An entry with an op that defines an input of another entry shares no op with it. -/
theorem disjoint_of_mem_inputs (hl : Layout g retName dupOutputs mds)
    {md md' : FunctionMetadata} (hmd : md ∈ mds) (hmd' : md' ∈ mds) {w : Value}
    (hw : w ∈ md.inputs) {n : Nat} (hn : n ∈ md'.ops) (hwn : w.getDefiningOp = some n) :
    Disjoint md'.ops md.ops := by
  have hnk : n ∉ md.ops := fun h => by
    have := ((hl.inputs md hmd w).1 hw).2 n h
    rw [Operation.defines_of_getDefiningOp (by rw [Func.opOf_name]; exact hwn)] at this
    cases this
  exact hl.disjoint.forall (show Symmetric (Disjoint on FunctionMetadata.ops) from
    fun _ _ h _ h₁ h₂ => h h₂ h₁) hmd' hmd fun e => hnk (e ▸ hn)

/-- An input of one entry that an op of another entry defines is an output of that entry. -/
theorem mem_results_of_mem_inputs (hl : Layout g retName dupOutputs mds)
    {md md' : FunctionMetadata} (hmd : md ∈ mds) (hmd' : md' ∈ mds) {w : Value}
    (hw : w ∈ md.inputs) {n : Nat} (hn : n ∈ md'.ops) (hwn : w.getDefiningOp = some n) :
    w ∈ md'.results := by
  obtain ⟨⟨y, hy, hwy⟩, -⟩ := (hl.inputs md hmd w).1 hw
  exact (hl.results md' hmd' w).2 ⟨⟨n, hn, hwn⟩, g.opOf y,
    Func.opOf_mem (mem_names_of_mem_body (hl.ops_body md hmd y hy)),
    by rw [Func.opOf_name]; exact fun h => hl.disjoint_of_mem_inputs hmd hmd' hw hn hwn h hy, hwy⟩

theorem exists_anchor (hl : Layout g retName dupOutputs mds) {k : Nat} {md : FunctionMetadata}
    (hk : mds[k]? = some md) :
    md.ops.getLast? = some (anchorOf mds k) ∧ anchorOf mds k ∈ md.ops := by
  obtain ⟨a, ha⟩ := Option.isSome_iff_exists.1
    (getLast?_isSome.2 (hl.ops_ne md (getElem?_mem hk)))
  have : anchorOf mds k = a := by simp [anchorOf, hk, ha]
  exact ⟨this ▸ ha, this ▸ mem_of_getLast?_eq_some ha⟩

/-- Distinct entries have distinct last ops. -/
theorem anchorOf_inj (hl : Layout g retName dupOutputs mds) {j k : Nat} (hj : j < mds.length)
    (hk : k < mds.length) (h : anchorOf mds j = anchorOf mds k) : j = k := by
  by_contra hne
  have hdj := (hl.exists_anchor (getElem?_eq_getElem hj)).2
  have hdk := (hl.exists_anchor (getElem?_eq_getElem hk)).2
  rw [h] at hdj
  rcases Nat.lt_or_gt_of_ne hne with hjk | hjk
  · exact pairwise_iff_getElem.1 hl.disjoint j k hj hk hjk hdj hdk
  · exact pairwise_iff_getElem.1 hl.disjoint k j hk hj hjk hdk hdj

theorem anchorOf_mem_names (hl : Layout g retName dupOutputs mds) {k : Nat}
    (hk : k < mds.length) : anchorOf mds k ∈ g.names :=
  mem_names_of_mem_body (hl.ops_body _ (getElem_mem hk) _
    (hl.exists_anchor (getElem?_eq_getElem hk)).2)

theorem slot_of_lt {base n : Nat} (h : n < base) :
    slot g base mds n = 2 * g.names.indexOf n + 1 := if_neg (Nat.not_le.2 h)

theorem slot_call (base k : Nat) :
    slot g base mds (base + k) = 2 * g.names.indexOf (anchorOf mds k) := by
  simp [slot]

end Layout

/-! ## The loop of `createCalls` -/

theorem CallOf.snoc {base : Nat} {done : List FunctionMetadata} {md : FunctionMetadata}
    {c : Operation} (h : CallOf base done c) (hmd : OutputsBelow base [md]) :
    CallOf base (done ++ [md]) (c.mapOperands (firstResult (base + done.length) 0 md.results)) := by
  obtain ⟨k, md', us, hk, rfl, hus⟩ := h
  refine ⟨k, md', us.map (firstResult (base + done.length) 0 md.results),
    by rw [getElem?_append_left (getElem?_eq_some_iff.1 hk).1, hk], rfl, ?_⟩
  exact forall₂_map_right_iff.2 (hus.imp fun _ u h => h.snoc (resultOf_firstResult _ _ u) hmd)

/-- Replacing the outputs of `done`, then those of `md`, is replacing those of both. -/
theorem mapOperands_callValue_snoc {base : Nat} {done : List FunctionMetadata}
    {md : FunctionMetadata} (hmd : OutputsBelow base [md]) (x : Operation) :
    (x.mapOperands (callValue base done)).mapOperands
      (firstResult (base + done.length) 0 md.results) =
      x.mapOperands (callValue base (done ++ [md])) := by
  rw [Operation.mapOperands_mapOperands]
  congr 1
  funext v
  rw [Function.comp_apply, callValue_append hmd, callValue_singleton]

/-- **The calls after one more entry.** If the body of `g'` is the calls of `done` and the
    ops of `g` with the outputs of `done` replaced, then so is the body `createCall` leaves
    with the call of `md` inserted, for `done ++ [md]`. -/
theorem calls_snoc {g g' g'' : Func} {base : Nat} {done : List FunctionMetadata}
    {md : FunctionMetadata} {mapping : List (Value × Value)} {L₁ L₂ : List Operation}
    {y : Operation} (hmd : OutputsBelow base [md]) (hdone : OutputsBelow base done)
    (hmap : MappingOf base done mapping)
    (h : ∃ cs : List Operation, cs.map Operation.name = (range done.length).map (base + ·) ∧
      (∀ c ∈ cs, CallOf base done c) ∧
      g'.body ~ cs ++ g.body.map (·.mapOperands (callValue base done)))
    (hL : g'.body = L₁ ++ y :: L₂)
    (hb : g''.body = (L₁ ++ .mk (base + done.length) ((md.inputs.map (lookupOrDefault mapping)).map
      (lookupOrDefault mapping)) [] [] :: y :: L₂).map
        (·.mapOperands (firstResult (base + done.length) 0 md.results))) :
    ∃ cs : List Operation, cs.map Operation.name = (range (done ++ [md]).length).map (base + ·) ∧
      (∀ c ∈ cs, CallOf base (done ++ [md]) c) ∧
      g''.body ~ cs ++ g.body.map (·.mapOperands (callValue base (done ++ [md]))) := by
  obtain ⟨cs, hcsn, hcs, hperm⟩ := h
  set φ : Operation → Operation := (·.mapOperands (firstResult (base + done.length) 0 md.results))
  set call : Operation := .mk (base + done.length)
    ((md.inputs.map (lookupOrDefault mapping)).map (lookupOrDefault mapping)) [] []
  refine ⟨cs.map φ ++ [φ call], ?_, fun c hc => ?_, ?_⟩
  · simp [map_append, hcsn, range_succ, φ, call, Function.comp_def]
  · rcases mem_append.1 hc with hc | hc
    · obtain ⟨c₀, hc₀, rfl⟩ := mem_map.1 hc
      exact (hcs c₀ hc₀).snoc hmd
    · rw [mem_singleton.1 hc]
      refine ⟨done.length, md, _, by simp, rfl, ?_⟩
      simp only [forall₂_map_right_iff, forall₂_same]
      exact fun w _ => (hmap.replaced hdone w).snoc (resultOf_firstResult _ _ _) hmd
  · have hmap : (cs ++ g.body.map (·.mapOperands (callValue base done))).map φ =
        cs.map φ ++ g.body.map (·.mapOperands (callValue base (done ++ [md]))) := by
      simp only [map_append, map_map]
      congr 1
      exact map_congr_left fun x _ => mapOperands_callValue_snoc hmd x
    rw [hb]
    refine (Perm.trans (by simp [perm_middle]) (((hL ▸ hperm).map φ).cons (φ call))).trans ?_
    rw [hmap]
    simpa using perm_middle.symm

namespace Layout

variable {g : Func} {retName : Nat} {dupOutputs : Bool} {mds : List FunctionMetadata}

theorem callsInv_nil (hl : Layout g retName dupOutputs mds) :
    CallsInv g (retName + 1) mds [] g [] := by
  refine ⟨rfl, ⟨[], rfl, fun _ h => absurd h (not_mem_nil _), ?_⟩, ?_,
    ⟨g.terminator.operands, by simp, forall₂_same.2 fun w _ => Or.inl ⟨rfl, fun _ h => absurd h
      (not_mem_nil _)⟩⟩, MappingOf.nil _⟩
  · have : callValue (retName + 1) [] = fun v => v := rfl
    simp [this, Operation.mapOperands_id]
  · -- the ops of the body stand in block order
    have hnd := Func.names_nodup hl.wf.nodup
    have hsub : g.body.map Operation.name <+ g.names := by
      simp only [Func.names, Func.ops, map_append]; exact sublist_append_left _ _
    rw [pairwise_map]
    refine ((pairwise_map.1 ((pairwise_indexOf hnd).sublist hsub))).imp_of_mem
      fun {a b} ha hb h => ?_
    rw [slot_of_lt (Nat.lt_succ_of_lt (hl.name_lt_of_mem_body (mem_map_of_mem _ ha))),
      slot_of_lt (Nat.lt_succ_of_lt (hl.name_lt_of_mem_body (mem_map_of_mem _ hb)))]
    omega

/-- **One entry of `createCalls`.** The call of the next entry goes before the entry's
    last op, which is still in the body; the invariant then holds with the entry done. -/
theorem callsInv_step (hl : Layout g retName dupOutputs mds) {done rest : List FunctionMetadata}
    {md : FunctionMetadata} (hmds : done ++ md :: rest = mds) {g' : Func}
    {mapping : List (Value × Value)} (h : CallsInv g (retName + 1) mds done g' mapping) :
    ∃ g'' mapping', createCall dupOutputs (retName + 1 + done.length) md g' mapping =
        some (g'', mapping') ∧ CallsInv g (retName + 1) mds (done ++ [md]) g'' mapping' := by
  set base := retName + 1
  have hmd : md ∈ mds := hmds ▸ mem_append_right _ (mem_cons_self _ _)
  have hk : mds[done.length]? = some md := by
    rw [← hmds, getElem?_append_right (Nat.le_refl _), Nat.sub_self]; simp
  have hklt : done.length < mds.length := (getElem?_eq_some_iff.1 hk).1
  have houtmd : OutputsBelow base [md] := fun md' h =>
    hl.outputsBelow md' (mem_singleton.1 h ▸ hmd)
  have houtdone : OutputsBelow base done := fun md' h =>
    hl.outputsBelow md' (hmds ▸ mem_append_left _ h)
  obtain ⟨ha, haops⟩ := hl.exists_anchor hk
  obtain ⟨cs, hcsn, -, hperm⟩ := h.calls
  obtain ⟨T, hT, hTR⟩ := h.terminator
  have hnames : g'.body.map Operation.name ~
      cs.map Operation.name ++ g.body.map Operation.name := by
    simpa [map_append, Function.comp_def] using hperm.map Operation.name
  have hmem : anchorOf mds done.length ∈ g'.body.map Operation.name :=
    hnames.mem_iff.2 (mem_append_right _ (hl.ops_body md hmd _ haops))
  -- the results of `md` are outputs of no entry of `done`
  have hnotdone : ∀ v ∈ md.results, ∀ md' ∈ done, v ∉ md'.results := fun v hv md' hmd' hv' => by
    obtain ⟨⟨n, hn, hd⟩, -⟩ := (hl.results md hmd v).1 hv
    obtain ⟨⟨n', hn', hd'⟩, -⟩ := (hl.results md' (hmds ▸ mem_append_left _ hmd') v).1 hv'
    rw [hd, Option.some.injEq] at hd'
    subst hd'
    have hdisj := hl.disjoint
    rw [← hmds, pairwise_append] at hdisj
    exact hdisj.2.2 md' hmd' md (mem_cons_self _ _) hn' hn
  have hcnt : dupOutputs = true → ∀ v ∈ md.results, v ∈ g'.terminator.operands →
      md.results.count v = g'.terminator.operands.count v := fun hdup v hv hvT => by
    have hc : g.terminator.operands.count v = T.count v := count_eq_of_forall₂ (fun w u h => by
      rcases h with ⟨rfl, -⟩ | ⟨j, md', i, hj, hi, rfl⟩
      · exact Iff.rfl
      · refine iff_of_false (fun e => hnotdone v hv md' (getElem?_mem hj) ?_) fun e => ?_
        · exact e ▸ getElem?_mem hi
        · have := houtmd md (mem_singleton_self _) v hv _ _ e.symm
          omega) hTR
    rw [hT, Operation.operands_withOperands] at hvT ⊢
    rw [← hc]
    exact hl.counts hdup md hmd v hv (count_pos_iff.1 (hc ▸ count_pos_iff.2 hvT))
  obtain ⟨g'', mapping', L₁, y, L₂, T', he, hL, hy, hL₁, hn, hb, hm, ht, hTT⟩ :=
    createCall_spec ha hmem (fun u hu j e => by
      have := houtmd md (mem_singleton_self _) u hu (base + done.length) j e
      omega) (by rw [hT, Operation.regions_withOperands]; exact hl.ret) hcnt
  set φ : Operation → Operation := (·.mapOperands (firstResult (base + done.length) 0 md.results))
  set call : Operation := .mk (base + done.length)
    ((md.inputs.map (lookupOrDefault mapping)).map (lookupOrDefault mapping)) [] []
  refine ⟨g'', mapping', he, ⟨hn.trans h.symName, calls_snoc houtmd houtdone h.mapping h.calls hL hb,
    ?_, ?_, hm ▸ h.mapping.snoc⟩⟩
  · -- the call stands right before the anchor, after every op and call before it
    have hs := h.sorted
    rw [hL] at hs
    have hy' : slot g base mds y.name = 2 * g.names.indexOf (anchorOf mds done.length) + 1 := by
      rw [hy, slot_of_lt (Nat.lt_succ_of_lt (hl.name_lt_of_mem_body (hl.ops_body md hmd _ haops)))]
    have hcall : slot g base mds call.name = 2 * g.names.indexOf (anchorOf mds done.length) :=
      slot_call base done.length
    rw [hb, map_map]
    simp only [Function.comp_def, φ, Operation.name_mapOperands, map_append, map_cons] at hs ⊢
    refine pairwise_lt_insert hs (fun x hx => ?_) (by rw [hy', hcall]; omega)
    obtain ⟨o, ho, rfl⟩ := mem_map.1 hx
    have hlt : slot g base mds o.name < slot g base mds y.name :=
      (pairwise_append.1 hs).2.2 _ (mem_map_of_mem _ ho) _ (mem_cons_self _ _)
    rw [hy'] at hlt
    rw [hcall]
    rcases mem_append.1 (hnames.mem_iff.1 (hL ▸ mem_map_of_mem Operation.name
      (mem_append_left _ ho))) with hc | hc
    · -- a call of an earlier entry, before another last op
      rw [hcsn] at hc
      obtain ⟨j, hj, e⟩ := mem_map.1 hc
      rw [← e, slot_call] at hlt ⊢
      have hjk : j < done.length := mem_range.1 hj
      have hj' : j < mds.length := by omega
      refine lt_of_le_of_ne (by omega) fun e' => ?_
      have := hl.anchorOf_inj hj' hklt ((indexOf_inj (hl.anchorOf_mem_names hj')
        (hl.anchorOf_mem_names hklt)).1 (by omega))
      omega
    · rw [slot_of_lt (Nat.lt_succ_of_lt (hl.name_lt_of_mem_body hc))] at hlt ⊢
      omega
  · exact ⟨T', by rw [ht, hT, Operation.withOperands_withOperands],
      forall₂_comp (fun _ _ _ h h' => h.snoc h' houtmd) hTR
        (by rwa [hT, Operation.operands_withOperands] at hTT)⟩

theorem createCallsFrom_spec (hl : Layout g retName dupOutputs mds) :
    ∀ (rest done : List FunctionMetadata) (g' : Func) (mapping : List (Value × Value)),
      done ++ rest = mds → CallsInv g (retName + 1) mds done g' mapping →
      ∃ g₁ mapping₁, createCallsFrom dupOutputs (retName + 1 + done.length) rest g' mapping =
        some g₁ ∧ CallsInv g (retName + 1) mds mds g₁ mapping₁
  | [], done, g', mapping, hmds, h => ⟨g', mapping, rfl, by
    obtain rfl : done = mds := by simpa using hmds
    exact h⟩
  | md :: rest, done, g', mapping, hmds, h => by
    obtain ⟨g'', mapping', he, h'⟩ := hl.callsInv_step hmds h
    obtain ⟨g₁, mapping₁, he₁, h₁⟩ :=
      createCallsFrom_spec hl rest (done ++ [md]) g'' mapping' (by simpa using hmds) h'
    refine ⟨g₁, mapping₁, ?_, h₁⟩
    rw [length_append, length_singleton, ← Nat.add_assoc] at he₁
    simp only [createCallsFrom, he, Option.bind_eq_bind, Option.some_bind, he₁]

/-- **`createCalls` on the layout** succeeds, with the invariant for every entry. -/
theorem createCalls_spec (hl : Layout g retName dupOutputs mds) :
    ∃ g₁ mapping₁, createCalls (retName + 1) mds g dupOutputs = some g₁ ∧
      CallsInv g (retName + 1) mds mds g₁ mapping₁ :=
  hl.createCallsFrom_spec mds [] g [] rfl hl.callsInv_nil

/-- **The erase loop on the layout.** After `createCalls`, every op of every entry is
    erased when no op left uses it: an op outside the entry uses its results only
    through the outputs, which the calls replaced, and the ops of the entry still there
    come before it. -/
theorem eraseOps_spec (hl : Layout g retName dupOutputs mds) {g₁ : Func}
    {mapping₁ : List (Value × Value)} (h : CallsInv g (retName + 1) mds mds g₁ mapping₁) :
    eraseOps mds g₁ = some { g₁ with
      body := g₁.body.filter (fun o => o.name ∉ mds.flatMap fun md => md.ops.reverse) } := by
  rw [eraseOps_eq]
  refine foldlM_eraseOp _ _ fun E₁ n E₂ e => ?_
  obtain ⟨md, hmd, hn, hbefore⟩ := exists_of_eq_flatMap_reverse e
  have hnlt : n < retName := hl.name_lt_of_mem_body (hl.ops_body md hmd n hn)
  have hnd := hl.wf.nodup
  -- a use of `n` is an operand that no rewriting touched, and it is an output
  have hout : ∀ w, w.getDefiningOp = some n → ∀ o ∈ g.ops, o.name ∉ md.ops →
      w ∈ o.deepOperands → w ∈ md.results := fun w hw o ho ho' hwo =>
    (hl.results md hmd w).2 ⟨⟨n, hn, hw⟩, o, ho, ho', hwo⟩
  have hreplaced : ∀ w v, Replaced (retName + 1) mds w v → v.getDefiningOp = some n →
      v = w ∧ ∀ md ∈ mds, w ∉ md.results := fun w v hr hv =>
    hr.eq_of_lt fun c i e => by rw [e] at hv; cases hv; omega
  obtain ⟨cs, -, hcs, hperm⟩ := h.calls
  obtain ⟨T, hT, hTR⟩ := h.terminator
  intro o ho hne v hv hd
  simp only [Func.ops, mem_append, mem_filter, mem_singleton] at ho
  rcases ho with ⟨ho, hoE⟩ | rfl
  · rcases mem_append.1 (hperm.mem_iff.1 ho) with hc | hx
    · -- a call: its operand stands for an input of another entry, so it is no output of `md`
      obtain ⟨k, md', us, hk, rfl, hus⟩ := hcs o hc
      rw [show (Operation.mk (retName + 1 + k) us [] []).deepOperands = us from
        Operation.deepOperands_of_regions_nil rfl] at hv
      obtain ⟨w, hw, hr⟩ := exists_of_forall₂_mem hus hv
      obtain ⟨rfl, hall⟩ := hreplaced w v hr hd
      exact hall md hmd (hl.mem_results_of_mem_inputs (getElem?_mem hk) hmd hw hn hd)
    · -- an op of `g` with its operands replaced
      obtain ⟨x, hxb, rfl⟩ := mem_map.1 hx
      rw [Operation.deepOperands_mapOperands] at hv
      obtain ⟨w, hw, rfl⟩ := mem_map.1 hv
      obtain ⟨e, hall⟩ := hreplaced w _ (replaced_callValue _ _ w) hd
      rw [e] at hd
      have hxg : x ∈ g.ops := mem_append_left _ hxb
      by_cases hxmd : x.name ∈ md.ops
      · -- an op of the entry not erased yet comes before `n`, so it does not use `n`
        simp only [Operation.name_mapOperands, decide_eq_true_eq] at hoE hne
        have h₁ : Before g.names x.name n :=
          (hbefore x.name hxmd hoE hne).mono (hl.contig md hmd).sublist
        have h₂ : Before g.names n x.name := hl.wf.dep x.name n
          ⟨w, by rw [Func.opOf_eq_of_mem hnd hxg]; exact hw, hd⟩
          (mem_map_of_mem _ hxg) (mem_names_of_mem_body (hl.ops_body md hmd n hn))
        exact h₁.not_swap (Func.names_nodup hnd) h₂
      · exact hall md hmd (hout w hd x hxg hxmd hw)
  · -- the terminator: its operands stand for those of `g`'s
    rw [hT, Operation.deepOperands_of_regions_nil (by simp [hl.ret]),
      Operation.operands_withOperands] at hv
    obtain ⟨w, hw, hr⟩ := exists_of_forall₂_mem hTR hv
    obtain ⟨rfl, hall⟩ := hreplaced w v hr hd
    refine hall md hmd (hout v hd g.terminator (mem_append_right _ (mem_singleton_self _))
      (fun ht => ?_) (by rw [Operation.deepOperands_of_regions_nil hl.ret]; exact hw))
    have := Func.names_nodup hnd
    simp only [Func.names, Func.ops, map_append, map_singleton] at this
    exact (nodup_append.1 this).2.2 (hl.ops_body md hmd _ ht) (mem_singleton_self _)

end Layout

/-- The ops of `g` in no entry. -/
def keptOps (g : Func) (mds : List FunctionMetadata) : List Operation :=
  g.body.filter fun o => o.name ∉ mds.flatMap fun md => md.ops.reverse

theorem mem_keptOps {g : Func} {mds : List FunctionMetadata} {o : Operation} :
    o ∈ keptOps g mds ↔ o ∈ g.body ∧ ∀ md ∈ mds, o.name ∉ md.ops := by
  simp [keptOps]

/-- What the pass leaves of `g`: the calls of the entries, numbered from `retName + 1`, and
    the ops outside the entries with the outputs replaced, in the order of `slot`; the
    terminator's operands stand for those of `g`. -/
structure Rewritten (g : Func) (retName : Nat) (mds : List FunctionMetadata) (g₂ : Func) :
    Prop where
  symName : g₂.symName = g.symName
  calls : ∃ cs : List Operation,
    cs.map Operation.name = (range mds.length).map (retName + 1 + ·) ∧
    (∀ c ∈ cs, CallOf (retName + 1) mds c) ∧
    g₂.body ~ cs ++ (keptOps g mds).map (·.mapOperands (callValue (retName + 1) mds))
  sorted : (g₂.body.map fun o => slot g (retName + 1) mds o.name).Pairwise (· < ·)
  terminator : ∃ T, g₂.terminator = g.terminator.withOperands T ∧
    Forall₂ (Replaced (retName + 1) mds) g.terminator.operands T

namespace Layout

variable {g : Func} {retName : Nat} {dupOutputs : Bool} {mds : List FunctionMetadata}

/-- **`createCalls` and the erase loop on the layout** succeed, and leave the calls and the
    ops outside the entries. -/
theorem rewrite_spec (hl : Layout g retName dupOutputs mds) :
    ∃ g₁ g₂, createCalls (retName + 1) mds g dupOutputs = some g₁ ∧ eraseOps mds g₁ = some g₂ ∧
      Rewritten g retName mds g₂ := by
  obtain ⟨g₁, mapping₁, he, h⟩ := hl.createCalls_spec
  refine ⟨g₁, _, he, hl.eraseOps_spec h, h.symName, ?_, ?_, h.terminator⟩
  · obtain ⟨cs, hcsn, hcs, hperm⟩ := h.calls
    refine ⟨cs, hcsn, hcs, ?_⟩
    have hcs_kept : cs.filter (fun o => o.name ∉ mds.flatMap fun md => md.ops.reverse) = cs :=
      filter_eq_self.2 fun c hc => by
        obtain ⟨k, md, us, -, rfl, -⟩ := hcs c hc
        simp only [decide_eq_true_eq, mem_flatMap, mem_reverse, not_exists, not_and]
        intro md' hmd' hn
        have := hl.name_lt_of_mem_body (hl.ops_body md' hmd' _ hn)
        simp [Operation.name] at this
        omega
    have hφ : ((fun o => decide (o.name ∉ mds.flatMap fun md => md.ops.reverse)) ∘
        fun x : Operation => x.mapOperands (callValue (retName + 1) mds)) =
        fun o => decide (o.name ∉ mds.flatMap fun md => md.ops.reverse) := by
      funext x; simp only [Function.comp_apply, Operation.name_mapOperands]
    have := hperm.filter (fun o => decide (o.name ∉ mds.flatMap fun md => md.ops.reverse))
    rwa [filter_append, hcs_kept, filter_map, hφ] at this
  · exact h.sorted.sublist ((filter_sublist _).map _)

end Layout

end GraphClustering
