/-
  `createCalls` with `dupOutputs` on any terminator: the positions of the terminator that
  return an output of an entry are handed out one occurrence at a time, entry after entry.

  * `ReturnCounted ret md`: the results of an entry as `getOutputsOfCluster` gives them when
    handed `retStats`: values its ops define, each one the terminator operands `ret` return
    as many times as `ret` returns it;
  * `DupReturn f base mds T`: the terminator operands `T` left by the entries `mds`: the
    `c`-th position of a result `v` of entry `k` holds the result of the call `base + k` at
    the `c`-th occurrence of `v` among the entry's results, the other positions keep theirs;
  * `DupCallsInv`: what holds after the entries `done` (the calls and the rewritten ops, the
    terminator, the mapping); `dupCallsInv_step` carries it across one entry, whose
    positions are still those of the original terminator (`DupReturn.snoc`);
  * `createCalls_dup_positions`: `createCalls` fails only on an entry with no ops (the
    `back()` of an empty vector, not the assertion), and leaves the calls, the rewritten
    body and `DupReturn`.
-/
import GraphClustering.Fallback

namespace GraphClustering

open List

/-! ## The entries and what they leave in the terminator -/

/-- The results of an entry as `getOutputsOfCluster` gives them when handed `retStats` for
    the terminator operands `ret`: values the entry's ops define, each value of its ops that
    `ret` returns occurring as often as `ret` returns it. (That the other results occur once
    is not needed.) -/
structure ReturnCounted (ret : List Value) (md : FunctionMetadata) : Prop where
  defined : ∀ v ∈ md.results, ∃ n ∈ md.ops, v.getDefiningOp = some n
  returned : ∀ v ∈ ret, (∃ n ∈ md.ops, v.getDefiningOp = some n) →
    md.results.count v = ret.count v

/-- The operands `T` the terminator of `f` is left with once `createCalls` with
    `dupOutputs` handled the entries `mds`, their calls numbered from `base`: the `c`-th
    position of a result `v` of entry `k` holds result `i` of the call `base + k`, `i` the
    position of the `c`-th occurrence of `v` among the entry's results; a position whose
    operand no entry outputs keeps it. -/
structure DupReturn (f : Func) (base : Nat) (mds : List FunctionMetadata) (T : List Value) :
    Prop where
  length : T.length = f.terminator.operands.length
  result : ∀ (k : Nat) (md : FunctionMetadata), mds[k]? = some md → ∀ v ∈ md.results,
    ∀ c p : Nat,
    (indicesOf f.terminator.operands v)[c]? = some p →
    ∃ i, (indicesOf md.results v)[c]? = some i ∧ T[p]? = some (.result (base + k) i)
  keep : ∀ (p : Nat) (v : Value), f.terminator.operands[p]? = some v →
    (∀ md ∈ mds, v ∉ md.results) →
    T[p]? = some v

/-- What holds after `createCalls` with `dupOutputs` has handled the entries `done` of `f`:
    the body is the calls of `done` and the ops of `f` with the outputs of `done` replaced,
    the terminator's operands are `DupReturn`, and the mapping has the pairs of `done`. -/
structure DupCallsInv (f : Func) (base : Nat) (done : List FunctionMetadata) (g : Func)
    (mapping : List (Value × Value)) : Prop where
  symName : g.symName = f.symName
  calls : ∃ cs : List Operation, cs.map Operation.name = (range done.length).map (base + ·) ∧
    (∀ c ∈ cs, CallOf base done c) ∧
    g.body ~ cs ++ f.body.map (·.mapOperands (callValue base done))
  terminator : ∃ T, g.terminator = f.terminator.withOperands T ∧ DupReturn f base done T
  mapping : MappingOf base done mapping

theorem Replaced.not_mem_results {base : Nat} {mds : List FunctionMetadata} {w u : Value}
    (h : Replaced base mds w u) (hout : OutputsBelow base mds) : ∀ md ∈ mds, u ∉ md.results := by
  rcases h with ⟨rfl, h⟩ | ⟨k, md, i, -, -, rfl⟩
  · exact h
  · intro md' hmd' hu
    have := hout md' hmd' _ hu _ _ rfl
    omega

/-- Values of the same list of positions have the same positions. -/
theorem indicesOf_congr {T ret : List Value} {v : Value} (hlen : T.length = ret.length)
    (h : ∀ p : Nat, T[p]? = some v ↔ ret[p]? = some v) : indicesOf T v = indicesOf ret v := by
  simp only [indicesOf, hlen]
  exact filter_congr fun p _ => by simp only [h]

namespace DupReturn

variable {f : Func} {base : Nat} {done : List FunctionMetadata} {T : List Value}

/-- Each operand of the terminator is replaced as `Replaced` says. -/
theorem replaced (h : DupReturn f base done T) {p : Nat} {w : Value}
    (hw : f.terminator.operands[p]? = some w) :
    ∃ u, T[p]? = some u ∧ Replaced base done w u := by
  by_cases hout : ∃ md ∈ done, w ∈ md.results
  · obtain ⟨md, hmd, hwr⟩ := hout
    obtain ⟨k, hk⟩ := mem_iff_getElem?.1 hmd
    obtain ⟨i, hi, hT⟩ := h.result k md hk w hwr _ p (indicesOf_count_take hw)
    exact ⟨_, hT, Or.inr ⟨k, md, i, hk, mem_indicesOf.1 (getElem?_mem hi), rfl⟩⟩
  · push_neg at hout
    exact ⟨w, h.keep p w hw hout, Or.inl ⟨rfl, hout⟩⟩

/-- A value that no entry of `done` outputs and that is no call's result sits where it sat
    in the original terminator. -/
theorem eq_some_iff_of_not_output (h : DupReturn f base done T) {v : Value} (hv : ∀ md ∈ done, v ∉ md.results) (hfresh : ∀ c i, v = .result c i → c < base)
    (p : Nat) : T[p]? = some v ↔ f.terminator.operands[p]? = some v := by
  refine ⟨fun hT => ?_, fun hw => h.keep p v hw hv⟩
  have hp : p < f.terminator.operands.length := h.length ▸ (getElem?_eq_some_iff.1 hT).1
  obtain ⟨w, hw⟩ : ∃ w, f.terminator.operands[p]? = some w := ⟨_, getElem?_eq_getElem hp⟩
  obtain ⟨u, hu, hr⟩ := h.replaced hw
  rw [hT, Option.some.injEq] at hu
  subst hu
  obtain ⟨rfl, -⟩ := hr.eq_of_lt hfresh
  exact hw

/-- The positions of a value that no entry of `done` outputs and that is no call's result are
    those it had in the original terminator. -/
theorem indicesOf_eq (h : DupReturn f base done T) {v : Value} (hv : ∀ md ∈ done, v ∉ md.results)
    (hfresh : ∀ c i, v = .result c i → c < base) :
    indicesOf T v = indicesOf f.terminator.operands v :=
  indicesOf_congr h.length (h.eq_some_iff_of_not_output hv hfresh)

/-- **One more entry.** If the call `base + done.length` of `md` gives the `c`-th position
    of each result `v` among `T` to the `c`-th occurrence of `v`, and leaves the other
    positions, `DupReturn` holds with `md` done. -/
theorem snoc (h : DupReturn f base done T) {md : FunctionMetadata} {T' : List Value}
    (hcnt : ReturnCounted f.terminator.operands md)
    (hnotdone : ∀ v ∈ md.results, ∀ md' ∈ done, v ∉ md'.results)
    (hout : OutputsBelow base [md]) (hlen : T'.length = T.length)
    (hnew : ∀ j v p, md.results[j]? = some v →
      (indicesOf T v)[(md.results.take j).count v]? = some p →
      T'[p]? = some (.result (base + done.length) j))
    (hframe : ∀ p, (∀ j v, md.results[j]? = some v →
      (indicesOf T v)[(md.results.take j).count v]? ≠ some p) → T'[p]? = T[p]?) :
    DupReturn f base (done ++ [md]) T' := by
  -- a position holding no result of `md` keeps its operand
  have hkeep : ∀ (p : Nat) (u : Value), T[p]? = some u → u ∉ md.results → T'[p]? = some u := by
    intro p u hu hur
    rw [hframe p fun j v hj hp => hur ?_, hu]
    have := (mem_indicesOf.1 (getElem?_mem hp)).symm.trans hu
    exact Option.some.inj this ▸ getElem?_mem hj
  refine ⟨by rw [hlen, h.length], fun k md₀ hk₀ v hv c p hp => ?_, fun p v hv hnot => ?_⟩
  · by_cases hkd : k < done.length
    · -- an earlier entry's position holds its call's result, which `md` does not output
      rw [getElem?_append_left hkd] at hk₀
      obtain ⟨i, hi, hTp⟩ := h.result k md₀ hk₀ v hv c p hp
      exact ⟨i, hi, hkeep p _ hTp fun hr => by
        have := hout md (mem_singleton_self _) _ hr _ _ rfl
        omega⟩
    · -- the `c`-th position of `v` takes the `c`-th occurrence among the results of `md`
      obtain rfl : k = done.length := by
        have := (getElem?_eq_some_iff.1 hk₀).1
        simp only [length_append, length_singleton] at this
        omega
      rw [getElem?_append_right (Nat.le_refl _), Nat.sub_self] at hk₀
      obtain rfl : md = md₀ := by simpa using hk₀
      have hc : c < (indicesOf md.results v).length := by
        rw [length_indicesOf, hcnt.returned v (getElem?_mem (mem_indicesOf.1 (getElem?_mem hp)))
          (hcnt.defined v hv), ← length_indicesOf]
        exact (getElem?_eq_some_iff.1 hp).1
      obtain ⟨i, hi⟩ : ∃ i, (indicesOf md.results v)[c]? = some i := ⟨_, getElem?_eq_getElem hc⟩
      refine ⟨i, hi, hnew i v p (mem_indicesOf.1 (getElem?_mem hi)) ?_⟩
      rw [count_take_indicesOf hi,
        h.indicesOf_eq (hnotdone v hv) (hout md (mem_singleton_self _) v hv)]
      exact hp
  · exact hkeep p v (h.keep p v hv fun md' h' => hnot md' (mem_append_left _ h'))
      (hnot md (mem_append_right _ (mem_singleton_self _)))

end DupReturn

/-! ## One entry -/

section Step

variable {f : Func} {base : Nat} {mds : List FunctionMetadata}

theorem outputsBelow_of_returnCounted (hcnt : ∀ md ∈ mds, ReturnCounted f.terminator.operands md)
    (hfresh : ∀ md ∈ mds, ∀ n ∈ md.ops, n < base) : OutputsBelow base mds := by
  intro md hmd v hv c i hvc
  obtain ⟨n, hn, hd⟩ := (hcnt md hmd).defined v hv
  rw [hvc] at hd
  cases hd
  exact hfresh md hmd _ hn

/-- The results of entries with disjoint ops are disjoint. -/
theorem not_mem_results_of_disjoint {md md' : FunctionMetadata}
    (h : ReturnCounted f.terminator.operands md) (h' : ReturnCounted f.terminator.operands md')
    (hdisj : List.Disjoint md.ops md'.ops) {v : Value} (hv : v ∈ md.results) :
    v ∉ md'.results := fun hv' => by
  obtain ⟨n, hn, hd⟩ := h.defined v hv
  obtain ⟨n', hn', hd'⟩ := h'.defined v hv'
  rw [hd, Option.some.injEq] at hd'
  subst hd'
  exact hdisj hn hn'

/-- **One entry of `createCalls` with `dupOutputs`.** The call of the next entry goes before
    its last op. Its results are outputs of no earlier entry, so their positions in the
    terminator are still those of `f`'s, as many as the entry has occurrences: the assertion
    holds, and the invariant holds with the entry done. -/
theorem dupCallsInv_step (hret : f.terminator.regions = [])
    (hops : ∀ md ∈ mds, ∀ n ∈ md.ops, n ∈ f.body.map Operation.name)
    (hfresh : ∀ md ∈ mds, ∀ n ∈ md.ops, n < base)
    (hdisj : mds.Pairwise (List.Disjoint on FunctionMetadata.ops))
    (hcnt : ∀ md ∈ mds, ReturnCounted f.terminator.operands md)
    {done rest : List FunctionMetadata} {md : FunctionMetadata} (hmds : done ++ md :: rest = mds)
    (hne : md.ops ≠ []) {g : Func} {mapping : List (Value × Value)}
    (h : DupCallsInv f base done g mapping) :
    ∃ g' mapping', createCall true (base + done.length) md g mapping = some (g', mapping') ∧
      DupCallsInv f base (done ++ [md]) g' mapping' := by
  have hmd : md ∈ mds := hmds ▸ mem_append_right _ (mem_cons_self _ _)
  have hk : mds[done.length]? = some md := by
    rw [← hmds, getElem?_append_right (Nat.le_refl _), Nat.sub_self]; simp
  have hout := outputsBelow_of_returnCounted hcnt hfresh
  have houtmd : OutputsBelow base [md] := fun md' h => hout md' (mem_singleton.1 h ▸ hmd)
  have houtdone : OutputsBelow base done := fun md' h => hout md' (hmds ▸ mem_append_left _ h)
  have hnotdone : ∀ v ∈ md.results, ∀ md' ∈ done, v ∉ md'.results := by
    intro v hv md' hmd'
    have hmd'' : md' ∈ mds := hmds ▸ mem_append_left _ hmd'
    have hd := hdisj
    rw [← hmds, pairwise_append] at hd
    exact not_mem_results_of_disjoint (hcnt md hmd) (hcnt md' hmd'')
      (fun _ h₁ h₂ => hd.2.2 md' hmd' md (mem_cons_self _ _) h₂ h₁) hv
  obtain ⟨a, ha⟩ : ∃ a, md.ops.getLast? = some a :=
    Option.isSome_iff_exists.1 (getLast?_isSome.2 hne)
  obtain ⟨cs, hcsn, -, hperm⟩ := h.calls
  have hmem : a ∈ g.body.map Operation.name := by
    have hnames : g.body.map Operation.name ~ cs.map Operation.name ++ f.body.map Operation.name := by
      simpa [map_append, Function.comp_def] using hperm.map Operation.name
    exact hnames.mem_iff.2 (mem_append_right _ (hops md hmd a (mem_of_getLast?_eq_some ha)))
  obtain ⟨T, hT, hdr⟩ := h.terminator
  have hgT : g.terminator.operands = T := by rw [hT, Operation.operands_withOperands]
  -- the results of `md` sit where they sat in `f`'s terminator, as often as it returns them
  have hcount : ∀ v ∈ md.results, v ∈ g.terminator.operands →
      md.results.count v = g.terminator.operands.count v := by
    intro v hv hvT
    have hc : T.count v = f.terminator.operands.count v := by
      rw [← length_indicesOf, ← length_indicesOf,
        hdr.indicesOf_eq (hnotdone v hv) (houtmd md (mem_singleton_self _) v hv)]
    rw [hgT] at hvT ⊢
    rw [hc]
    exact (hcnt md hmd).returned v (count_pos_iff.1 (hc ▸ count_pos_iff.2 hvT))
      ((hcnt md hmd).defined v hv)
  obtain ⟨g', mapping', L₁, y, L₂, -, he, hL, -, -, hn, hb, hm, -, -⟩ :=
    createCall_spec (f := g) ha hmem (fun u hu j e => by
      have := houtmd md (mem_singleton_self _) u hu (base + done.length) j e
      omega) (by rw [hT, Operation.regions_withOperands]; exact hret) fun _ => hcount
  obtain ⟨T', ht', hlen', hnew, hframe⟩ :=
    createCall_dup_positions (fun v hv hvT => (hcount v hv hvT).le) he
  rw [hgT] at hlen' hnew hframe
  exact ⟨g', mapping', he, hn.trans h.symName, calls_snoc houtmd houtdone h.mapping h.calls hL hb,
    ⟨T', by rw [ht', hT, Operation.withOperands_withOperands],
      hdr.snoc (hcnt md hmd) hnotdone houtmd hlen' hnew hframe⟩, hm ▸ h.mapping.snoc⟩

theorem dupCallsInv_nil (f : Func) (base : Nat) : DupCallsInv f base [] f [] := by
  refine ⟨rfl, ⟨[], rfl, fun _ h => absurd h (not_mem_nil _), ?_⟩,
    ⟨f.terminator.operands, by simp, rfl, fun _ _ h => by simp at h, fun _ _ hv _ => hv⟩,
    MappingOf.nil _⟩
  have : callValue base [] = fun v => v := rfl
  simp [this, Operation.mapOperands_id]

/-- **The loop of `createCalls` with `dupOutputs`**, on entries that all have ops. -/
theorem dupCallsInv_run (hret : f.terminator.regions = [])
    (hops : ∀ md ∈ mds, ∀ n ∈ md.ops, n ∈ f.body.map Operation.name)
    (hfresh : ∀ md ∈ mds, ∀ n ∈ md.ops, n < base)
    (hdisj : mds.Pairwise (List.Disjoint on FunctionMetadata.ops))
    (hcnt : ∀ md ∈ mds, ReturnCounted f.terminator.operands md) :
    ∀ (rest done : List FunctionMetadata) (g : Func) (mapping : List (Value × Value)),
      done ++ rest = mds → (∀ md ∈ rest, md.ops ≠ []) → DupCallsInv f base done g mapping →
      ∃ g₁ mapping₁, createCallsFrom true (base + done.length) rest g mapping = some g₁ ∧
        DupCallsInv f base mds g₁ mapping₁
  | [], done, g, mapping, hmds, _, h => ⟨g, mapping, rfl, by
    obtain rfl : done = mds := by simpa using hmds
    exact h⟩
  | md :: rest, done, g, mapping, hmds, hne, h => by
    obtain ⟨g', mapping', he, h'⟩ :=
      dupCallsInv_step hret hops hfresh hdisj hcnt hmds (hne md (mem_cons_self _ _)) h
    obtain ⟨g₁, mapping₁, he₁, h₁⟩ := dupCallsInv_run hret hops hfresh hdisj hcnt rest
      (done ++ [md]) g' mapping' (by simpa using hmds) (fun md' h => hne md' (mem_cons_of_mem _ h))
      h'
    refine ⟨g₁, mapping₁, ?_, h₁⟩
    rw [length_append, length_singleton, ← Nat.add_assoc] at he₁
    simp only [createCallsFrom, he, Option.bind_eq_bind, Option.some_bind, he₁]

end Step

/-- `createCalls` gets past an entry only if the entry has ops (`metadata.ops.back()`). -/
theorem createCallsFrom_ops_ne {dupOutputs : Bool} :
    ∀ {rest : List FunctionMetadata} {c : Nat} {g g₁ : Func} {mapping : List (Value × Value)},
      createCallsFrom dupOutputs c rest g mapping = some g₁ → ∀ md ∈ rest, md.ops ≠ []
  | [], _, _, _, _, _ => fun _ h => absurd h (not_mem_nil _)
  | md :: rest, c, g, g₁, mapping, h => by
    simp only [createCallsFrom, Option.bind_eq_bind, Option.bind_eq_some] at h
    obtain ⟨⟨g', mapping'⟩, hc, h⟩ := h
    intro md' hmd'
    rcases mem_cons.1 hmd' with rfl | hmd'
    · intro hnil
      simp [createCall, hnil] at hc
    · exact createCallsFrom_ops_ne h md' hmd'

/-! ## `createCalls` with `dupOutputs` -/

/-- **`createCalls` with `dupOutputs` hands out every returned occurrence once.** Take any
    function `f` (its terminator, a `func.return`, has no regions) and entries whose ops are
    ops of its body, pairwise disjoint, with the results `getOutputsOfCluster` gives with
    `retStats`. Then `createCalls` fails only on an entry with no ops, never on the
    assertion that a returned value has a position left, however many entries there are.
    When it returns `g`: the body of `g` is the calls and the ops of `f` with each use of an
    output replaced by the first result of its entry's call, the calls' operands standing
    for their inputs, so no op but the terminator uses an output any more; the `c`-th
    position of the terminator returning a result `v` of entry `k` holds the result of the
    call `freshHandle f + 1 + k` at the `c`-th occurrence of `v` among the entry's results,
    the others keep their operand (`DupReturn`); and no terminator operand is defined by an
    op of an entry. -/
theorem createCalls_dup_positions (f : Func) (mds : List FunctionMetadata)
    (hret : f.terminator.regions = [])
    (hops : ∀ md ∈ mds, ∀ n ∈ md.ops, n ∈ f.body.map Operation.name)
    (hdisj : mds.Pairwise (List.Disjoint on FunctionMetadata.ops))
    (hcnt : ∀ md ∈ mds, ReturnCounted f.terminator.operands md) :
    (createCalls (freshHandle f + 1) mds f true = none → ∃ md ∈ mds, md.ops = []) ∧
    ∀ g, createCalls (freshHandle f + 1) mds f true = some g →
      (∃ cs : List Operation,
        cs.map Operation.name = (range mds.length).map (freshHandle f + 1 + ·) ∧
        (∀ c ∈ cs, CallOf (freshHandle f + 1) mds c) ∧
        g.body ~ cs ++ f.body.map (·.mapOperands (callValue (freshHandle f + 1) mds))) ∧
      (∀ o ∈ g.body, ∀ u ∈ o.deepOperands, ∀ md ∈ mds, u ∉ md.results) ∧
      (∃ T, g.terminator = f.terminator.withOperands T ∧ DupReturn f (freshHandle f + 1) mds T) ∧
      ∀ u ∈ g.terminator.operands, ∀ md ∈ mds, ∀ n ∈ md.ops, u.getDefiningOp ≠ some n := by
  have hfresh : ∀ md ∈ mds, ∀ n ∈ md.ops, n < freshHandle f + 1 := fun md hmd n hn => by
    obtain ⟨o, ho, rfl⟩ := mem_map.1 (hops md hmd n hn)
    exact Nat.lt_succ_of_lt
      (lt_freshHandle (mem_map_of_mem _ (Func.ops_subset_walk (mem_append_left _ ho))))
  have hout := outputsBelow_of_returnCounted hcnt hfresh
  have hrun := dupCallsInv_run hret hops hfresh hdisj hcnt mds [] f [] rfl
  simp only [length_nil, Nat.add_zero] at hrun
  refine ⟨fun h => ?_, fun g h => ?_⟩
  · by_contra hall
    push_neg at hall
    obtain ⟨g₁, -, he, -⟩ := hrun hall (dupCallsInv_nil f _)
    simp [createCalls, he] at h
  obtain ⟨g₁, _, he, hinv⟩ := hrun (createCallsFrom_ops_ne h) (dupCallsInv_nil f _)
  obtain rfl : g₁ = g := Option.some.inj (he.symm.trans h)
  obtain ⟨T, hT, hdr⟩ := hinv.terminator
  refine ⟨hinv.calls, fun o ho u hu md hmd hur => ?_, ⟨T, hT, hdr⟩,
    fun u hu md hmd n hn hd => ?_⟩
  · -- a call's operand stands for an input, a kept op's for its own operand
    obtain ⟨cs, -, hcs, hperm⟩ := hinv.calls
    rcases mem_append.1 (hperm.mem_iff.1 ho) with hc | ho
    · obtain ⟨k, md', us, -, rfl, hus⟩ := hcs o hc
      rw [show (Operation.mk _ us [] []).deepOperands = us from
        Operation.deepOperands_of_regions_nil rfl] at hu
      obtain ⟨w, -, hw⟩ := exists_of_forall₂_mem hus hu
      exact hw.not_mem_results hout md hmd hur
    · obtain ⟨x, -, rfl⟩ := mem_map.1 ho
      rw [Operation.deepOperands_mapOperands] at hu
      obtain ⟨w, -, rfl⟩ := mem_map.1 hu
      exact (replaced_callValue _ mds w).not_mem_results hout md hmd hur
  · -- a kept operand is no output, so no op of an entry defines it
    rw [hT, Operation.operands_withOperands] at hu
    obtain ⟨p, hp⟩ := mem_iff_getElem?.1 hu
    have hp' : p < f.terminator.operands.length := hdr.length ▸ (getElem?_eq_some_iff.1 hp).1
    obtain ⟨u', hu', hr⟩ := hdr.replaced (getElem?_eq_getElem hp')
    rw [hp, Option.some.injEq] at hu'
    subst hu'
    rcases hr with ⟨rfl, hw⟩ | ⟨k, md', i, -, -, rfl⟩
    · have := (hcnt md hmd).returned _ (getElem_mem _) ⟨n, hn, hd⟩
      exact hw md hmd (count_pos_iff.1 (this ▸ count_pos_iff.2 (getElem_mem _)))
    · cases hd
      have := hfresh md hmd _ hn
      omega

/-- A block where `a` (handle 0) defines `v` and `b` (1) uses `v` and defines `w`; the
    terminator (2) returns `v`, `v`, `w`. -/
def dupFunc : Func :=
  ⟨"main", [.mk 0 [] [] [], .mk 1 [.result 0 0] [] []],
    .mk 2 [.result 0 0, .result 0 0, .result 1 0] [] []⟩

/-- The entries `[a]`, with `v` twice among its results, then `[b]`. -/
def dupEntries : List FunctionMetadata :=
  [⟨"cuda", [0], [], [.result 0 0, .result 0 0]⟩, ⟨"cuda", [1], [.result 0 0], [.result 1 0]⟩]

/-- On `dupFunc`, the calls 4 and 5 go before `a` and `b`; `b` uses the first result of call
    4 and call 5 its second; the terminator returns the two results of call 4 in order, then
    that of call 5. -/
theorem dupFunc_dup_positions :
    createCalls (freshHandle dupFunc + 1) dupEntries dupFunc true =
      some ⟨"main", [.mk 4 [] [] [], .mk 0 [] [] [], .mk 5 [.result 4 1] [] [],
        .mk 1 [.result 4 0] [] []], .mk 2 [.result 4 0, .result 4 1, .result 5 0] [] []⟩ ∧
    DupReturn dupFunc (freshHandle dupFunc + 1) dupEntries
      [.result 4 0, .result 4 1, .result 5 0] := by
  have h : createCalls (freshHandle dupFunc + 1) dupEntries dupFunc true =
      some ⟨"main", [.mk 4 [] [] [], .mk 0 [] [] [], .mk 5 [.result 4 1] [] [],
        .mk 1 [.result 4 0] [] []], .mk 2 [.result 4 0, .result 4 1, .result 5 0] [] []⟩ := rfl
  have hcnt : ∀ md ∈ dupEntries, ReturnCounted dupFunc.terminator.operands md := by
    simp only [dupEntries, mem_cons, mem_singleton, forall_eq_or_imp, forall_eq, not_mem_nil,
      or_false]
    exact ⟨⟨by decide, by decide⟩, ⟨by decide, by decide⟩⟩
  obtain ⟨-, -, ⟨T, hT, hdr⟩, -⟩ := (createCalls_dup_positions dupFunc dupEntries rfl
    (by decide) (by simp [dupEntries, Function.onFun]) hcnt).2 _ h
  refine ⟨h, ?_⟩
  obtain rfl : T = [.result 4 0, .result 4 1, .result 5 0] := by
    simpa [dupFunc, Operation.withOperands] using hT.symm
  exact hdr

end GraphClustering
