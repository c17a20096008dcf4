/-
  What `createCalls` and the erase loop do to a function, for entries whose ops are
  contiguous ranges of the block.

  * `callValue`, `Replaced`: where the rewritten uses of a value point, the first result of
    the call of the entry that outputs it, and the relation every rewritten operand keeps to
    the operand it replaces;
  * `replaceResults_spec`: one entry's loop over its results rewrites every op of the body
    with `firstResult`;
  * `replaceResults_dup_positions`: with `dupOutputs`, the `c`-th occurrence of a value among
    the results takes the `c`-th position of the value among the terminator's operands
    left over, and the other positions keep their operand;
  * `createCall_spec`, `createCall_dup_positions`: one entry, its call and what it leaves.
-/
import GraphClustering.Semantics

namespace GraphClustering

open List

/-! ## Where rewritten uses point -/

/-- `v`, or result `i + k` of the call `callName` if `v` is first at position `k` of `rs`. -/
def firstResult (callName i : Nat) (rs : List Value) (v : Value) : Value :=
  if v ∈ rs then .result callName (i + rs.indexOf v) else v

/-- The value `createCalls` puts in place of `v` where it rewrites every use, once the
    entries `mds` got the calls numbered from `base`: the first result of the call whose
    entry outputs `v`. -/
def callValue (base : Nat) : List FunctionMetadata → Value → Value
  | [], v => v
  | md :: mds, v => if v ∈ md.results then firstResult base 0 md.results v
    else callValue (base + 1) mds v

/-- `u` stands where the source had `w`: `w` itself, which no entry of `mds` outputs, or a
    result of the call of an entry that outputs `w`, standing for that output. -/
def Replaced (base : Nat) (mds : List FunctionMetadata) (w u : Value) : Prop :=
  (u = w ∧ ∀ md ∈ mds, w ∉ md.results) ∨
  ∃ k md i, mds[k]? = some md ∧ md.results[i]? = some w ∧ u = .result (base + k) i

/-- No output of the entries `mds` is a result of a call numbered from `base`. -/
def OutputsBelow (base : Nat) (mds : List FunctionMetadata) : Prop :=
  ∀ md ∈ mds, ∀ v ∈ md.results, ∀ c i, v = .result c i → c < base

/-- `u` is what the call `callName`, whose results stand for `rs`, leaves where `w` was: one
    of its results standing for `w`, or `w` itself if `w` is not among `rs`. -/
def ResultOf (callName : Nat) (rs : List Value) (w u : Value) : Prop :=
  (∃ i, rs[i]? = some w ∧ u = .result callName i) ∨ (w ∉ rs ∧ u = w)

theorem Operation.mapOperands_id : ∀ op : Operation, op.mapOperands (fun v => v) = op
  | .mk n vs as rs => by
    simp only [Operation.mapOperands, map_id', mapOperandsList_id rs]
where
  mapOperandsList_id : ∀ ops : List Operation, Operation.mapOperandsList (fun v => v) ops = ops
    | [] => rfl
    | op :: ops => by
      simp only [Operation.mapOperandsList, Operation.mapOperands_id op, mapOperandsList_id ops]

theorem firstResult_nil (callName i : Nat) : firstResult callName i [] = fun v => v := by
  funext v; simp [firstResult]

theorem firstResult_of_not_mem {callName i : Nat} {rs : List Value} {v : Value} (h : v ∉ rs) :
    firstResult callName i rs v = v := if_neg h

/-- Replacing `v` by result `i` of the call, then the rest of the results from `i + 1`, is
    replacing every result from `i`. -/
theorem firstResult_cons {callName i : Nat} {v : Value} {rs : List Value}
    (hrs : ∀ u ∈ rs, ∀ j, u ≠ .result callName j) :
    firstResult callName (i + 1) rs ∘ replaceValue v (.result callName i) =
      firstResult callName i (v :: rs) := by
  funext u
  simp only [Function.comp, replaceValue]
  by_cases huv : u = v
  · subst huv
    rw [if_pos rfl, firstResult_of_not_mem (fun h => hrs _ h i rfl)]
    simp [firstResult]
  · simp only [huv, if_false, firstResult, mem_cons, indexOf_cons_ne _ (Ne.symm huv)]
    split <;> simp_all [Nat.add_right_comm, Nat.add_assoc]

theorem callValue_cons_of_not_mem {base : Nat} {md : FunctionMetadata}
    {mds : List FunctionMetadata} {v : Value} (h : v ∉ md.results) :
    callValue base (md :: mds) v = callValue (base + 1) mds v := if_neg h

theorem replaced_callValue (base : Nat) (mds : List FunctionMetadata) (w : Value) :
    Replaced base mds w (callValue base mds w) := by
  induction mds generalizing base with
  | nil => exact Or.inl ⟨rfl, fun _ h => (not_mem_nil _ h).elim⟩
  | cons md mds ih =>
    by_cases hw : w ∈ md.results
    · refine Or.inr ⟨0, md, md.results.indexOf w, by simp, getElem?_indexOf hw, ?_⟩
      simp [callValue, hw, firstResult]
    · simp only [callValue, hw, if_false]
      rcases ih (base + 1) with ⟨he, hall⟩ | ⟨k, md', i, hk, hi, he⟩
      · exact Or.inl ⟨he, fun md' h => (mem_cons.1 h).elim (· ▸ hw) (hall md')⟩
      · exact Or.inr ⟨k + 1, md', i, by simpa using hk, hi,
          by rw [he, Nat.add_right_comm, Nat.add_assoc]⟩

theorem resultOf_firstResult (callName : Nat) (rs : List Value) (w : Value) :
    ResultOf callName rs w (firstResult callName 0 rs w) := by
  by_cases hw : w ∈ rs
  · exact Or.inl ⟨rs.indexOf w, getElem?_indexOf hw, by simp [firstResult, hw]⟩
  · exact Or.inr ⟨hw, firstResult_of_not_mem hw⟩

theorem callValue_singleton (base : Nat) (md : FunctionMetadata) :
    callValue base [md] = firstResult base 0 md.results := by
  funext v
  by_cases hv : v ∈ md.results
  · simp [callValue, hv]
  · simp [callValue, hv, firstResult_of_not_mem hv]

/-- The entry `md`, numbered after `done`, rewrites what `done` left. -/
theorem Replaced.snoc {base : Nat} {done : List FunctionMetadata} {md : FunctionMetadata}
    {w u u' : Value} (h : Replaced base done w u)
    (h' : ResultOf (base + done.length) md.results u u') (hmd : OutputsBelow base [md]) :
    Replaced base (done ++ [md]) w u' := by
  rcases h with ⟨rfl, hall⟩ | ⟨k, md', i, hk, hi, rfl⟩
  · rcases h' with ⟨i, hi, rfl⟩ | ⟨hu, rfl⟩
    · exact Or.inr ⟨done.length, md, i, by simp, hi, rfl⟩
    · refine Or.inl ⟨rfl, fun md' h => ?_⟩
      rcases mem_append.1 h with h | h
      · exact hall md' h
      · exact (mem_singleton.1 h) ▸ hu
  · have hlt : k < done.length := (getElem?_eq_some_iff.1 hk).1
    rcases h' with ⟨j, hj, -⟩ | ⟨-, rfl⟩
    · -- a call's result is no output of `md`
      have := hmd md (mem_singleton_self _) _ (getElem?_mem hj) _ _ rfl
      omega
    · exact Or.inr ⟨k, md', i, by rw [getElem?_append_left hlt, hk], hi, rfl⟩

/-- `callValue` of one more entry: what is left of the earlier entries' rewriting goes to
    the new one. -/
theorem callValue_append {base : Nat} {done : List FunctionMetadata} {md : FunctionMetadata}
    (hmd : OutputsBelow base [md]) (v : Value) :
    callValue base (done ++ [md]) v =
      callValue (base + done.length) [md] (callValue base done v) := by
  induction done generalizing base with
  | nil => simp [callValue]
  | cons md' done ih =>
    have hmd' : OutputsBelow (base + 1) [md] := fun md₁ h₁ v₁ h₂ c i e =>
      Nat.lt_succ_of_lt (hmd md₁ h₁ v₁ h₂ c i e)
    by_cases hv : v ∈ md'.results
    · have hnot : firstResult base 0 md'.results v ∉ md.results := fun h => by
        have := hmd md (mem_singleton_self _) _ h base (md'.results.indexOf v)
          (by simp [firstResult, hv])
        omega
      simp [callValue, hv, hnot]
    · rw [cons_append, callValue_cons_of_not_mem hv, callValue_cons_of_not_mem hv, ih hmd',
        length_cons, show base + 1 + done.length = base + (done.length + 1) by omega]

/-! ## The mapping of `createCalls` -/

/-- The pairs `mapping` holds after the entries `done`: each result of an entry, to the
    result of the entry's call at the same position; every result has a pair. -/
def MappingOf (base : Nat) (done : List FunctionMetadata) (mapping : List (Value × Value)) :
    Prop :=
  (∀ p ∈ mapping, ∃ k md i, done[k]? = some md ∧ md.results[i]? = some p.1 ∧
    p.2 = .result (base + k) i) ∧
  ∀ md ∈ done, ∀ w ∈ md.results, w ∈ mapping.map Prod.fst

theorem lookupOrDefault_cases (mapping : List (Value × Value)) (w : Value) :
    (w, lookupOrDefault mapping w) ∈ mapping ∨
      (w ∉ mapping.map Prod.fst ∧ lookupOrDefault mapping w = w) := by
  unfold lookupOrDefault
  cases h : mapping.lookup w with
  | some u =>
    obtain ⟨l₁, l₂, rfl, -⟩ := lookup_eq_some_iff.1 h
    exact Or.inl (by simp)
  | none =>
    refine Or.inr ⟨fun hw => ?_, rfl⟩
    obtain ⟨p, hp, rfl⟩ := mem_map.1 hw
    simpa using lookup_eq_none_iff.1 h p hp

theorem MappingOf.nil (base : Nat) : MappingOf base [] [] :=
  ⟨fun _ h => absurd h (not_mem_nil _), fun _ h => absurd h (not_mem_nil _)⟩

theorem MappingOf.snoc {base : Nat} {done : List FunctionMetadata} {md : FunctionMetadata}
    {mapping : List (Value × Value)} (h : MappingOf base done mapping) :
    MappingOf base (done ++ [md]) ((md.results.enum.map fun p =>
      (p.2, Value.result (base + done.length) p.1)).reverse ++ mapping) := by
  refine ⟨fun p hp => ?_, fun md' hmd' w hw => ?_⟩
  · rcases mem_append.1 hp with hp | hp
    · obtain ⟨⟨i, v⟩, hiv, rfl⟩ := mem_map.1 (mem_reverse.1 hp)
      obtain ⟨hi, hv⟩ := mem_enum hiv
      exact ⟨done.length, md, i, by simp, by rw [hv]; exact getElem?_eq_getElem hi, rfl⟩
    · obtain ⟨k, md', i, hk, hi, he⟩ := h.1 p hp
      exact ⟨k, md', i, by rw [getElem?_append_left (getElem?_eq_some_iff.1 hk).1, hk], hi, he⟩
  · rw [map_append, mem_append]
    rcases mem_append.1 hmd' with hmd' | hmd'
    · exact Or.inr (h.2 md' hmd' w hw)
    · obtain rfl := mem_singleton.1 hmd'
      obtain ⟨i, hi⟩ := mem_iff_getElem?.1 hw
      refine Or.inl (mem_map.2 ⟨(w, _), mem_reverse.2 (mem_map.2 ⟨(i, w), ?_, rfl⟩), rfl⟩)
      exact mem_iff_getElem?.2 ⟨i, by simp [getElem?_enum, hi]⟩

/-- An input of the entry after `done`, looked up twice in the mapping, is replaced as the
    entries `done` replace it: a call's result is no key of the mapping. -/
theorem MappingOf.replaced {base : Nat} {done : List FunctionMetadata}
    {mapping : List (Value × Value)} (h : MappingOf base done mapping)
    (hout : OutputsBelow base done) (w : Value) :
    Replaced base done w (lookupOrDefault mapping (lookupOrDefault mapping w)) := by
  have hkey : ∀ k i, Value.result (base + k) i ∉ mapping.map Prod.fst := fun k i hk => by
    obtain ⟨p, hp, e⟩ := mem_map.1 hk
    obtain ⟨k', md, i', hk', hi', -⟩ := h.1 p hp
    rw [e] at hi'
    have := hout md (getElem?_mem hk') _ (getElem?_mem hi') _ _ rfl
    omega
  rcases lookupOrDefault_cases mapping w with hw | ⟨hw, e⟩
  · obtain ⟨k, md, i, hk, hi, he⟩ := h.1 _ hw
    simp only at hi he
    rw [he]
    rcases lookupOrDefault_cases mapping (.result (base + k) i) with h' | ⟨-, e⟩
    · exact absurd (mem_map.2 ⟨_, h', rfl⟩) (hkey k i)
    · exact Or.inr ⟨k, md, i, hk, hi, e⟩
  · rw [e, e]
    exact Or.inl ⟨rfl, fun md hmd hw' => hw (h.2 md hmd w hw')⟩

/-! ## One entry's results -/

section ReplaceResults

variable {dupOutputs : Bool} {callName : Nat} {snap : List Value}

/-- **The loop over an entry's results.** Every op of the body, nested ones included, has
    each output replaced by the first result of the call that stands for it; the mapping
    gets a pair for each result, the last first; without `dupOutputs` the terminator is
    rewritten like the body. -/
theorem replaceResults_spec {i : Nat} {rs taken : List Value} {f f' : Func}
    {mapping mapping' : List (Value × Value)} (hrs : ∀ u ∈ rs, ∀ j, u ≠ .result callName j)
    (h : replaceResults dupOutputs callName snap i rs taken f mapping = some (f', mapping')) :
    f'.symName = f.symName ∧
    f'.body = f.body.map (·.mapOperands (firstResult callName i rs)) ∧
    mapping' = ((rs.enumFrom i).map fun p => (p.2, Value.result callName p.1)).reverse ++
      mapping ∧
    (dupOutputs = false →
      f'.terminator = f.terminator.mapOperands (firstResult callName i rs)) := by
  induction rs generalizing i taken f mapping with
  | nil =>
    cases h
    simp [firstResult_nil, Operation.mapOperands_id]
  | cons v rs ih =>
    have hrs' : ∀ u ∈ rs, ∀ j, u ≠ .result callName j := fun u hu => hrs u (mem_cons_of_mem _ hu)
    have hcomp := firstResult_cons (i := i) (v := v) hrs'
    have step : ∀ {f₁ : Func} {taken₁ : List Value},
        replaceResults dupOutputs callName snap (i + 1) rs taken₁ f₁
          ((v, .result callName i) :: mapping) = some (f', mapping') →
        f₁.symName = f.symName →
        f₁.body = f.body.map (·.mapOperands (replaceValue v (.result callName i))) →
        (dupOutputs = false →
          f₁.terminator = f.terminator.mapOperands (replaceValue v (.result callName i))) →
        f'.symName = f.symName ∧
        f'.body = f.body.map (·.mapOperands (firstResult callName i (v :: rs))) ∧
        mapping' = (((v :: rs).enumFrom i).map fun p => (p.2, Value.result callName p.1)).reverse
          ++ mapping ∧
        (dupOutputs = false →
          f'.terminator = f.terminator.mapOperands (firstResult callName i (v :: rs))) := by
      intro f₁ taken₁ h₁ hn hb ht
      obtain ⟨hn', hb', hm', ht'⟩ := ih hrs' h₁
      refine ⟨hn'.trans hn, ?_, ?_, fun hd => ?_⟩
      · rw [hb', hb, map_map]
        exact congrArg (map · f.body) (funext fun op => by
          rw [Function.comp_apply, Operation.mapOperands_mapOperands, hcomp])
      · simp [hm']
      · rw [ht' hd, ht hd, Operation.mapOperands_mapOperands, hcomp]
    unfold replaceResults at h
    cases dupOutputs with
    | false =>
      exact step h rfl rfl fun _ => rfl
    | true =>
      simp only [if_true] at h
      split at h
      · split at h
        · cases h
        · exact step h rfl rfl fun h => by cases h
      · exact step h rfl rfl fun h => by cases h

end ReplaceResults

/-! ## The terminator's positions -/

namespace Operation

/-- The ops of the op's regions. -/
def regions : Operation → List Operation
  | mk _ _ _ rs => rs

/-- The op with its own operands replaced by `vs`. -/
def withOperands : Operation → List Value → Operation
  | mk n _ as rs, vs => mk n vs as rs

@[simp] theorem name_withOperands (op : Operation) (vs : List Value) :
    (op.withOperands vs).name = op.name := by cases op; rfl

@[simp] theorem operands_withOperands (op : Operation) (vs : List Value) :
    (op.withOperands vs).operands = vs := by cases op; rfl

@[simp] theorem regions_withOperands (op : Operation) (vs : List Value) :
    (op.withOperands vs).regions = op.regions := by cases op; rfl

@[simp] theorem withOperands_withOperands (op : Operation) (vs vs' : List Value) :
    (op.withOperands vs).withOperands vs' = op.withOperands vs' := by cases op; rfl

@[simp] theorem withOperands_operands (op : Operation) : op.withOperands op.operands = op := by
  cases op; rfl

theorem mapOperands_of_regions_nil {op : Operation} (h : op.regions = []) (g : Value → Value) :
    op.mapOperands g = op.withOperands (op.operands.map g) := by
  cases op with
  | mk n vs as rs =>
    cases h
    rfl

end Operation

theorem setRetOperand_terminator (idx : Nat) (new : Value) (f : Func) :
    (setRetOperand idx new f).terminator =
      f.terminator.withOperands (f.terminator.operands.set idx new) := by
  cases h : f.terminator
  simp [setRetOperand, h, Operation.withOperands]

theorem mem_indicesOf {vs : List Value} {v : Value} {p : Nat} :
    p ∈ indicesOf vs v ↔ vs[p]? = some v := by
  simp only [indicesOf, mem_filter, mem_range, decide_eq_true_eq, and_iff_right_iff_imp]
  exact fun h => (getElem?_eq_some_iff.1 h).1

theorem indicesOf_append_singleton (vs : List Value) (x v : Value) :
    indicesOf (vs ++ [x]) v = indicesOf vs v ++ if x = v then [vs.length] else [] := by
  simp only [indicesOf, length_append, length_singleton, range_succ, filter_append]
  congr 1
  · exact filter_congr fun i hi => by rw [getElem?_append_left (mem_range.1 hi)]
  · by_cases h : x = v <;> simp [h]

theorem length_indicesOf (vs : List Value) (v : Value) : (indicesOf vs v).length = vs.count v := by
  induction vs using List.reverseRecOn with
  | nil => rfl
  | append_singleton vs x ih =>
    rw [indicesOf_append_singleton, length_append, ih, count_append, count_singleton']
    by_cases h : x = v <;> simp [h]

theorem forall₂_of_getElem? {α β : Type} {R : α → β → Prop} :
    ∀ {l₁ : List α} {l₂ : List β}, l₁.length = l₂.length →
      (∀ (p : Nat) a b, l₁[p]? = some a → l₂[p]? = some b → R a b) → Forall₂ R l₁ l₂
  | [], [], _, _ => .nil
  | a :: l₁, b :: l₂, hl, h =>
    .cons (h 0 a b (by simp) (by simp))
      (forall₂_of_getElem? (by simpa using hl) fun p a' b' h₁ h₂ =>
        h (p + 1) a' b' (by simpa using h₁) (by simpa using h₂))
  | [], _ :: _, hl, _ => absurd hl (by simp)
  | _ :: _, [], hl, _ => absurd hl (by simp)

theorem indicesOf_inj {vs : List Value} {v : Value} {a b p : Nat}
    (ha : (indicesOf vs v)[a]? = some p) (hb : (indicesOf vs v)[b]? = some p) : a = b :=
  getElem?_inj (getElem?_eq_some_iff.1 ha).1 ((nodup_range _).filter _) (ha.trans hb.symm)

/-- The `c`-th position of `v` has `c` occurrences of `v` before it. -/
theorem count_take_indicesOf {v : Value} {c p : Nat} :
    ∀ {vs : List Value}, (indicesOf vs v)[c]? = some p → (vs.take p).count v = c := by
  intro vs
  induction vs using List.reverseRecOn with
  | nil => simp [indicesOf]
  | append_singleton vs x ih =>
    intro h
    rw [indicesOf_append_singleton] at h
    by_cases hc : c < (indicesOf vs v).length
    · rw [getElem?_append_left hc] at h
      have hp : p < vs.length := (getElem?_eq_some_iff.1 (mem_indicesOf.1 (getElem?_mem h))).1
      rw [take_append_of_le_length hp.le, ih h]
    · rw [getElem?_append_right (Nat.le_of_not_lt hc)] at h
      split at h
      · rcases hk : c - (indicesOf vs v).length with _ | k <;> simp [hk] at h
        subst h
        rw [take_left' rfl, ← length_indicesOf]
        omega
      · simp at h

/-- The position `p` of `v` is its `c`-th, `c` the occurrences of `v` before `p`. -/
theorem indicesOf_count_take {vs : List Value} {v : Value} {p : Nat} (h : vs[p]? = some v) :
    (indicesOf vs v)[(vs.take p).count v]? = some p := by
  obtain ⟨c, hc⟩ := mem_iff_getElem?.1 (mem_indicesOf.2 h)
  rwa [count_take_indicesOf hc]

/-- **Where the `dupOutputs` loop puts each result.** The `j`-th result `v` of the entry is
    the `(rs.take j).count v`-th occurrence of `v` among `rs`; it takes the position of `v`
    among the terminator's operands `snap` that follows the `taken.count v` already handed
    out, and the positions no result takes keep their operand. -/
theorem replaceResults_dup_positions (callName : Nat) (snap : List Value) :
    ∀ (rs : List Value) (i : Nat) (taken : List Value) (f : Func)
      (mapping : List (Value × Value)),
    f.terminator.operands.length = snap.length →
    (∀ v ∈ rs, v ∈ snap → taken.count v + rs.count v ≤ snap.count v) →
    ∃ f' mapping' T, replaceResults true callName snap i rs taken f mapping = some (f', mapping') ∧
      f'.terminator = f.terminator.withOperands T ∧ T.length = snap.length ∧
      (∀ j v p, rs[j]? = some v →
        (indicesOf snap v)[taken.count v + (rs.take j).count v]? = some p →
        T[p]? = some (Value.result callName (i + j))) ∧
      (∀ p, (∀ j v, rs[j]? = some v →
        (indicesOf snap v)[taken.count v + (rs.take j).count v]? ≠ some p) →
        T[p]? = f.terminator.operands[p]?)
  | [], i, taken, f, mapping, hlen, _ =>
    ⟨f, mapping, f.terminator.operands, rfl, by simp, hlen, by simp, fun _ _ => rfl⟩
  | v :: rs, i, taken, f, mapping, hlen, hcnt => by
    simp only [replaceResults, if_true]
    by_cases hv : v ∈ snap
    · -- `v` takes the next of its positions, `idx`
      have hc₀ : taken.count v < (indicesOf snap v).length := by
        have := hcnt v (mem_cons_self _ _) hv
        rw [length_indicesOf]; simp only [count_cons_self] at this; omega
      obtain ⟨idx, hidx⟩ : ∃ idx, (indicesOf snap v)[taken.count v]? = some idx :=
        ⟨_, getElem?_eq_getElem hc₀⟩
      have hsnap : snap[idx]? = some v := mem_indicesOf.1 (getElem?_mem hidx)
      have hidx_lt : idx < f.terminator.operands.length := hlen ▸ (getElem?_eq_some_iff.1 hsnap).1
      simp only [hv, if_true, hidx]
      obtain ⟨f', mapping', T, he, ht, hlen', hout, hframe⟩ :=
        replaceResults_dup_positions callName snap rs (i + 1) (v :: taken)
          (setRetOperand idx (.result callName i) (replaceAllUsesExcept v (.result callName i) f))
          ((v, .result callName i) :: mapping)
          (by simp [setRetOperand_terminator, replaceAllUsesExcept, hlen])
          (fun u hu hus => by
            have := hcnt u (mem_cons_of_mem _ hu) hus
            by_cases huv : u = v
            · subst huv; simp only [count_cons_self] at this ⊢; omega
            · simp only [count_cons_of_ne huv] at this ⊢; omega)
      -- result `j` of the rest is result `j + 1` of the whole list
      have hshift : ∀ j u, (v :: taken).count u + (rs.take j).count u =
          taken.count u + ((v :: rs).take (j + 1)).count u := by
        intro j u; simp only [take_succ_cons, count_cons]; omega
      -- no later result takes `idx`
      have hnot : ∀ j u, rs[j]? = some u →
          (indicesOf snap u)[(v :: taken).count u + (rs.take j).count u]? ≠ some idx := by
        intro j u _ h
        obtain rfl : u = v := Option.some.inj ((mem_indicesOf.1 (getElem?_mem h)).symm.trans hsnap)
        have := indicesOf_inj h hidx
        simp only [count_cons_self] at this; omega
      refine ⟨f', mapping', T, he, by simp [ht, setRetOperand_terminator, replaceAllUsesExcept],
        hlen', fun j u p hj hp => ?_, fun p hp => ?_⟩
      · cases j with
        | zero =>
          obtain rfl : v = u := by simpa using hj
          obtain rfl : idx = p := by simpa [hidx] using hp
          rw [hframe idx hnot, setRetOperand_terminator]
          simp [replaceAllUsesExcept, getElem?_set, hidx_lt]
        | succ j =>
          rw [← hshift] at hp
          rw [hout j u p (by simpa using hj) hp, Nat.add_right_comm, Nat.add_assoc]
      · have hp' : idx ≠ p := fun e => hp 0 v (by simp) (by simpa [e] using hidx)
        rw [hframe p fun j u hj => by rw [hshift]; exact hp (j + 1) u (by simpa using hj),
          setRetOperand_terminator]
        simp [replaceAllUsesExcept, getElem?_set, hp']
    · simp only [hv, if_false]
      obtain ⟨f', mapping', T, he, ht, hlen', hout, hframe⟩ :=
        replaceResults_dup_positions callName snap rs (i + 1) taken
          (replaceAllUsesExcept v (.result callName i) f) ((v, .result callName i) :: mapping) hlen
          (fun u hu hus => by
            have := hcnt u (mem_cons_of_mem _ hu) hus
            have huv : u ≠ v := fun h => hv (h ▸ hus)
            simp only [count_cons_of_ne huv] at this; omega)
      have hv' : indicesOf snap v = [] := by
        rw [← length_eq_zero, length_indicesOf]; exact count_eq_zero.2 hv
      have hshift : ∀ j u, u ≠ v → taken.count u + (rs.take j).count u =
          taken.count u + ((v :: rs).take (j + 1)).count u := by
        intro j u huv; simp [take_succ_cons, count_cons, Ne.symm huv]
      refine ⟨f', mapping', T, he, ht, hlen', fun j u p hj hp => ?_, fun p hp => ?_⟩
      · by_cases huv : u = v
        · subst huv; simp [hv'] at hp
        cases j with
        | zero => exact absurd (by simpa using hj.symm) huv
        | succ j =>
          rw [← hshift j u huv] at hp
          rw [hout j u p (by simpa using hj) hp, Nat.add_right_comm, Nat.add_assoc]
      · exact hframe p fun j u hj => by
          by_cases huv : u = v
          · subst huv; simp [hv']
          · rw [hshift j u huv]; exact hp (j + 1) u (by simpa using hj)

/-! ## One call -/

/-- Without `dupOutputs`, the loop over an entry's results never fails. -/
theorem replaceResults_false_isSome (callName : Nat) (snap : List Value) :
    ∀ (i : Nat) (rs taken : List Value) (f : Func) (mapping : List (Value × Value)),
      ∃ r, replaceResults false callName snap i rs taken f mapping = some r
  | _, [], _, f, mapping => ⟨(f, mapping), rfl⟩
  | i, v :: rs, taken, f, mapping => by
    simp only [replaceResults, Bool.false_eq_true, if_false]
    exact replaceResults_false_isSome callName snap (i + 1) rs taken _ _

theorem insertCallBefore_split {a : Nat} {c : Operation} :
    ∀ {L : List Operation}, a ∈ L.map Operation.name →
      ∃ L₁ y L₂, L = L₁ ++ y :: L₂ ∧ y.name = a ∧ a ∉ L₁.map Operation.name ∧
        insertCallBefore a c L = L₁ ++ c :: y :: L₂
  | [], h => absurd h (not_mem_nil _)
  | o :: os, h => by
    by_cases ho : o.name = a
    · exact ⟨[], o, os, rfl, ho, not_mem_nil _, by simp [insertCallBefore, ho]⟩
    · have h' : a ∈ os.map Operation.name := by
        rw [map_cons, mem_cons] at h
        exact h.resolve_left fun e => ho e.symm
      obtain ⟨L₁, y, L₂, rfl, hy, hL₁, he⟩ := insertCallBefore_split (c := c) h'
      refine ⟨o :: L₁, y, L₂, rfl, hy, ?_, by simp [insertCallBefore, ho, he]⟩
      rw [map_cons, mem_cons, not_or]
      exact ⟨fun e => ho e.symm, hL₁⟩

/-- **One entry of `createCalls`.** The call goes right before the entry's last op; every op
    of the body, the call included, has the entry's results replaced by the call's; the
    mapping gets the entry's pairs; and each operand of the terminator becomes a result of
    the call standing for it, or stays. With `dupOutputs` this needs every result returned
    to occur among the results as often as among the terminator's operands. -/
theorem createCall_spec {dupOutputs : Bool} {callName : Nat} {md : FunctionMetadata} {f : Func}
    {mapping : List (Value × Value)} {a : Nat} (ha : md.ops.getLast? = some a)
    (hmem : a ∈ f.body.map Operation.name) (hrs : ∀ u ∈ md.results, ∀ j, u ≠ .result callName j)
    (hret : f.terminator.regions = [])
    (hcnt : dupOutputs = true → ∀ v ∈ md.results, v ∈ f.terminator.operands →
      md.results.count v = f.terminator.operands.count v) :
    ∃ f' mapping' L₁ y L₂ T, createCall dupOutputs callName md f mapping = some (f', mapping') ∧
      f.body = L₁ ++ y :: L₂ ∧ y.name = a ∧ a ∉ L₁.map Operation.name ∧
      f'.symName = f.symName ∧
      f'.body = (L₁ ++ .mk callName ((md.inputs.map (lookupOrDefault mapping)).map
        (lookupOrDefault mapping)) [] [] :: y :: L₂).map
          (·.mapOperands (firstResult callName 0 md.results)) ∧
      mapping' = ((md.results.enum.map fun p => (p.2, Value.result callName p.1)).reverse ++
        mapping) ∧
      f'.terminator = f.terminator.withOperands T ∧
      Forall₂ (ResultOf callName md.results) f.terminator.operands T := by
  obtain ⟨L₁, y, L₂, hL, hy, hL₁, hins⟩ := insertCallBefore_split (c := .mk callName
    ((md.inputs.map (lookupOrDefault mapping)).map (lookupOrDefault mapping)) [] []) hmem
  set f₁ : Func := { f with body := insertCallBefore a (.mk callName
    ((md.inputs.map (lookupOrDefault mapping)).map (lookupOrDefault mapping)) [] []) f.body }
  have hcall : createCall dupOutputs callName md f mapping = replaceResults dupOutputs callName
      f.terminator.operands 0 md.results [] f₁ mapping := by
    simp only [createCall, ha, Option.pure_def, Option.bind_eq_bind, Option.some_bind]
  cases dupOutputs with
  | false =>
    obtain ⟨⟨f', mapping'⟩, he⟩ := replaceResults_false_isSome callName f.terminator.operands 0
      md.results [] f₁ mapping
    obtain ⟨hn, hb, hm, ht⟩ := replaceResults_spec hrs he
    refine ⟨f', mapping', L₁, y, L₂, _, hcall.trans he, hL, hy, hL₁, hn,
      by rw [hb]; exact congrArg _ hins, hm,
      by rw [ht rfl, Operation.mapOperands_of_regions_nil hret], ?_⟩
    exact forall₂_map_right_iff.2 (forall₂_same.2 fun w _ => resultOf_firstResult _ _ w)
  | true =>
    obtain ⟨f', mapping', T, he, ht, hlen, hout, hframe⟩ :=
      replaceResults_dup_positions callName _ md.results 0 [] f₁ mapping rfl fun v hv hvs => by
        rw [count_nil, Nat.zero_add, hcnt rfl v hv hvs]
    obtain ⟨hn, hb, hm, -⟩ := replaceResults_spec hrs he
    refine ⟨f', mapping', L₁, y, L₂, T, hcall.trans he, hL, hy, hL₁, hn,
      by rw [hb]; exact congrArg _ hins, hm, ht,
      forall₂_of_getElem? hlen.symm fun p w u hw hu => ?_⟩
    by_cases hwr : w ∈ md.results
    · -- the position `p` is the `c`-th of `w`, which the `c`-th occurrence of `w` takes
      have hc := indicesOf_count_take hw
      have hclt : (f.terminator.operands.take p).count w < (indicesOf md.results w).length := by
        rw [length_indicesOf, hcnt rfl w hwr (getElem?_mem hw)]
        simpa only [length_indicesOf] using (getElem?_eq_some_iff.1 hc).1
      obtain ⟨j, hj⟩ : ∃ j, (indicesOf md.results w)[(f.terminator.operands.take p).count w]? =
          some j := ⟨_, getElem?_eq_getElem hclt⟩
      have hrj := mem_indicesOf.1 (getElem?_mem hj)
      have hT := hout j w p hrj (by rw [count_nil, Nat.zero_add, count_take_indicesOf hj]; exact hc)
      rw [hu, Option.some.injEq] at hT
      exact Or.inl ⟨j, hrj, by simpa using hT⟩
    · -- no result takes a position of `w`
      have h := hframe p fun j v hj hp => hwr <| by
        obtain rfl := Option.some.inj ((mem_indicesOf.1 (getElem?_mem hp)).symm.trans hw)
        exact getElem?_mem hj
      rw [hu, hw, Option.some.injEq] at h
      exact Or.inr ⟨hwr, h⟩

/-- **The positions one call takes with `dupOutputs`.** The `j`-th result `v` of the entry,
    its `c`-th occurrence, replaces the `c`-th occurrence of `v` among the terminator's
    operands, and the other operands stay. -/
theorem createCall_dup_positions {callName : Nat} {md : FunctionMetadata} {f f' : Func}
    {mapping mapping' : List (Value × Value)}
    (hcnt : ∀ v ∈ md.results, v ∈ f.terminator.operands →
      md.results.count v ≤ f.terminator.operands.count v)
    (h : createCall true callName md f mapping = some (f', mapping')) :
    ∃ T, f'.terminator = f.terminator.withOperands T ∧
      T.length = f.terminator.operands.length ∧
      (∀ j v p, md.results[j]? = some v →
        (indicesOf f.terminator.operands v)[(md.results.take j).count v]? = some p →
        T[p]? = some (Value.result callName j)) ∧
      (∀ p, (∀ j v, md.results[j]? = some v →
        (indicesOf f.terminator.operands v)[(md.results.take j).count v]? ≠ some p) →
        T[p]? = f.terminator.operands[p]?) := by
  -- the call goes into the body only; the terminator `replaceResults` starts from is `f`'s
  obtain ⟨f₁, hf₁, h⟩ : ∃ f₁ : Func, f₁.terminator = f.terminator ∧ replaceResults true callName
      f.terminator.operands 0 md.results [] f₁ mapping = some (f', mapping') := by
    obtain ⟨a, -, h⟩ : ∃ a, md.ops.getLast? = some a ∧ replaceResults true callName
        f.terminator.operands 0 md.results [] { f with body := insertCallBefore a (.mk callName
          ((md.inputs.map (lookupOrDefault mapping)).map (lookupOrDefault mapping)) [] []) f.body }
        mapping = some (f', mapping') := by
      simpa [createCall, Option.bind_eq_some] using h
    exact ⟨_, by rfl, h⟩
  obtain ⟨f'', mapping'', T, he, ht, hlen, hout, hframe⟩ := replaceResults_dup_positions callName
    f.terminator.operands md.results 0 [] f₁ mapping (by rw [hf₁]) fun v hv hvs => by
      simpa using hcnt v hv hvs
  obtain ⟨rfl, -⟩ := Prod.mk.inj (Option.some.inj (he.symm.trans h))
  rw [hf₁] at ht hframe
  exact ⟨T, ht, hlen, fun j v p hj hp => by simpa using hout j v p hj (by simpa using hp),
    fun p hp => hframe p fun j v hj => by simpa using hp j v hj⟩

/-! ## The erase loop -/

/-- No op of `f` but `n` itself has an operand, its own or a nested op's, defined by `n`. -/
def NoUseOf (f : Func) (n : Nat) : Prop :=
  ∀ o ∈ f.ops, o.name ≠ n → ∀ v ∈ o.deepOperands, v.getDefiningOp ≠ some n

theorem eraseOp_of_noUseOf {f : Func} {n : Nat} (h : NoUseOf f n) :
    eraseOp f n = some { f with body := f.body.filter (·.name != n) } := by
  unfold eraseOp
  rw [if_neg]
  simp only [any_eq_true, Bool.and_eq_true, bne_iff_ne, ne_eq, beq_iff_eq, not_exists, not_and]
  exact fun o ho hne v hv hd => h o ho hne v hv hd

theorem filter_filter_name (l : List Operation) (n : Nat) (E : List Nat) :
    (l.filter (·.name != n)).filter (·.name ∉ E) = l.filter (·.name ∉ n :: E) := by
  rw [filter_filter]
  exact filter_congr fun o _ => by by_cases h : o.name = n <;> simp [h]

/-- **The erase loop over a list of ops succeeds** when each op, at its turn, has no use
    left among the ops not yet erased, and it removes exactly those ops. -/
theorem foldlM_eraseOp : ∀ (L : List Nat) (f : Func),
    (∀ E₁ n E₂, L = E₁ ++ n :: E₂ → NoUseOf { f with body := f.body.filter (·.name ∉ E₁) } n) →
    L.foldlM eraseOp f = some { f with body := f.body.filter (·.name ∉ L) }
  | [], f, _ => by simp
  | n :: L, f, h => by
    have h₀ : NoUseOf f n := by simpa using h [] n L rfl
    rw [foldlM_cons, eraseOp_of_noUseOf h₀, Option.bind_eq_bind, Option.some_bind,
      foldlM_eraseOp L _ fun E₁ m E₂ e => ?_]
    · simp only [filter_filter_name]
    · simpa only [filter_filter_name] using h (n :: E₁) m E₂ (by rw [e]; rfl)

theorem eraseOps_eq (metadatas : List FunctionMetadata) (f : Func) :
    eraseOps metadatas f = (metadatas.flatMap fun md => md.ops.reverse).foldlM eraseOp f := by
  induction metadatas generalizing f with
  | nil => rfl
  | cons md mds ih =>
    simp only [eraseOps, foldlM_cons, flatMap_cons, foldlM_append] at ih ⊢
    exact congrArg _ (funext ih)

/-- At the turn of `n` in the erase loop, `n` is an op of an entry whose ops not yet erased,
    but `n`, come before `n` in the entry. -/
theorem exists_of_eq_flatMap_reverse {E₂ : List Nat} {n : Nat} :
    ∀ {mds : List FunctionMetadata} {E₁ : List Nat},
      mds.flatMap (fun md => md.ops.reverse) = E₁ ++ n :: E₂ →
      ∃ md ∈ mds, n ∈ md.ops ∧ ∀ x ∈ md.ops, x ∉ E₁ → x ≠ n → Before md.ops x n
  | [], E₁, h => by cases E₁ <;> simp at h
  | md :: mds, E₁, h => by
    rw [flatMap_cons] at h
    rcases append_eq_append_iff.1 h with ⟨a', rfl, h'⟩ | ⟨c', hE, h'⟩
    · obtain ⟨md', hmd', hn, hx⟩ := exists_of_eq_flatMap_reverse h'
      exact ⟨md', mem_cons_of_mem _ hmd', hn, fun x hx' hxE hxn =>
        hx x hx' (fun h => hxE (mem_append_right _ h)) hxn⟩
    · rcases cons_eq_append_iff.1 h' with ⟨rfl, h''⟩ | ⟨c'', rfl, -⟩
      · obtain ⟨md', hmd', hn, hx⟩ := exists_of_eq_flatMap_reverse
          (show _ = [] ++ n :: E₂ from h'')
        exact ⟨md', mem_cons_of_mem _ hmd', hn, fun x hx' _ hxn =>
          hx x hx' (not_mem_nil _) hxn⟩
      · have hops : md.ops = c''.reverse ++ n :: E₁.reverse := by
          rw [← reverse_reverse md.ops, hE]; simp
        refine ⟨md, mem_cons_self _ _, by rw [hops]; simp, fun x hx hxE hxn => ?_⟩
        rw [hops] at hx ⊢
        rcases mem_append.1 hx with hx | hx
        · exact before_append hx (mem_cons_self _ _)
        · rcases mem_cons.1 hx with rfl | hx
          · exact absurd rfl hxn
          · exact absurd (mem_reverse.1 hx) hxE

end GraphClustering
