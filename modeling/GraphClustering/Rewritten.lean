/-
  The function the pass leaves on a layout, and the functions it creates, are well formed.

  * `Func.not_mem_names_of_nested`: an op nested in an op of the block has the handle of no
    op of the block;
  * `Rewritten.slot_lt_of_uses`: every value an op of the rewritten function uses is
    defined at an earlier slot: a call takes the results of calls of entries before it in
    the block and of ops before its entry; an op outside the entries takes results of
    calls of entries before it; the terminator comes last;
  * `Rewritten.wellFormed`: so the rewritten function is well formed;
  * `Layout.wellFormed_createFunction`: each created function is well formed.
-/
import GraphClustering.Layout

namespace GraphClustering

open List

/-! ## Handles and positions -/

/-- An op nested in an op of the block has the handle of no op of the block: handles are
    distinct across the whole walk. -/
theorem Func.not_mem_names_of_nested {f : Func} (hnd : f.NamesNodup) {o w : Operation}
    (ho : o ∈ f.ops) (hw : w ∈ o.walk) (hne : w ≠ o) : w.name ∉ f.names := by
  obtain ⟨A, B, hAB⟩ := append_of_mem ho
  cases o with
  | mk n vs as rs =>
    rw [Operation.walk_mk, mem_cons] at hw
    have hw' : w ∈ Operation.walkList rs := hw.resolve_left hne
    have hnd' := hnd
    simp only [Func.NamesNodup, Func.walk, hAB, Operation.walkList_append,
      Operation.walkList_cons, Operation.walk_mk, map_append, map_cons] at hnd'
    intro hmem
    simp only [Func.names, hAB, map_append, map_cons, mem_append, mem_cons] at hmem
    have hwA := (nodup_append.1 hnd').2.2
    have hwB := (nodup_append.1 (nodup_append.1 hnd').2.1)
    rcases hmem with hA | hself | hB
    · obtain ⟨o', ho', e⟩ := mem_map.1 hA
      refine hwA (mem_map.2 ⟨o', ?_, e⟩) (by simp [mem_map_of_mem _ hw'])
      rw [Operation.walkList_eq_flatMap]
      exact mem_flatMap.2 ⟨o', ho', Operation.mem_walk_self o'⟩
    · exact (nodup_cons.1 hwB.1).1 (hself ▸ mem_map_of_mem _ hw')
    · obtain ⟨o', ho', e⟩ := mem_map.1 hB
      refine hwB.2.2 (by simp [mem_map_of_mem _ hw']) (mem_map.2 ⟨o', ?_, e⟩)
      rw [Operation.walkList_eq_flatMap]
      exact mem_flatMap.2 ⟨o', ho', Operation.mem_walk_self o'⟩

/-- In a list increasing by `s`, a smaller `s` means earlier. -/
theorem before_of_lt {l : List Nat} {s : Nat → Nat} (hl : (l.map s).Pairwise (· < ·)) {a b : Nat}
    (ha : a ∈ l) (hb : b ∈ l) (h : s a < s b) : Before l a b := by
  rcases before_total ha hb (fun e => by rw [e] at h; exact Nat.lt_irrefl _ h) with h' | h'
  · exact h'
  · have := (pairwise_map.1 hl).sublist h'
    simp only [pairwise_cons, mem_singleton, forall_eq, Pairwise.nil, and_true] at this
    omega

/-- An op reads only values defined before it, in a block whose handles are the list `l`. -/
theorem mem_pre_of_before {L pre post : List Operation} {op : Operation}
    (hL : L = pre ++ op :: post) (hnd : (L.map Operation.name).Nodup) {d : Nat}
    (h : Before (L.map Operation.name) d op.name) : d ∈ pre.map Operation.name := by
  subst hL
  simp only [map_append, map_cons] at h hnd
  rcases before_append_iff.1 h with h | h | ⟨hd, -⟩
  · exact h.mem_left
  · rcases before_cons_iff.1 h with h | ⟨-, h⟩
    · exact absurd h.mem_right (nodup_cons.1 (nodup_append.1 hnd).2.1).1
    · exact absurd h (nodup_cons.1 (nodup_append.1 hnd).2.1).1
  · exact hd

theorem flatMap_sublist_flatMap {α β : Type} (f : α → List β) :
    ∀ {l₁ l₂ : List α}, l₁ <+ l₂ → l₁.flatMap f <+ l₂.flatMap f
  | _, _, .slnil => Sublist.slnil
  | _, _, .cons a h => (flatMap_sublist_flatMap f h).trans (by simp)
  | _, _, .cons₂ a h => by simpa using (flatMap_sublist_flatMap f h).append_left (f a)

theorem flatMap_eq_map_of_forall {α β : Type} {f : α → List β} {h : α → β} :
    ∀ {l : List α}, (∀ x ∈ l, f x = [h x]) → l.flatMap f = l.map h
  | [], _ => rfl
  | x :: l, hx => by
    rw [flatMap_cons, map_cons, hx x (mem_cons_self _ _),
      flatMap_eq_map_of_forall fun y hy => hx y (mem_cons_of_mem _ hy)]
    rfl

theorem Operation.walk_of_regions_nil {op : Operation} (h : op.regions = []) :
    op.walk = [op] := by
  cases op with
  | mk n vs as rs =>
    cases h
    simp [Operation.walk_mk]

/-! ## Consequences of the layout for the rewritten function -/

namespace Layout

variable {g : Func} {retName : Nat} {dupOutputs : Bool} {mds : List FunctionMetadata}

theorem names_eq (g : Func) : g.names = g.body.map Operation.name ++ [g.terminator.name] := by
  simp [Func.names, Func.ops]

/-- Handles named by operands of `g` are below `retName`. -/
theorem lt_of_mem_deepOperands (hl : Layout g retName dupOutputs mds) {y : Operation}
    (hy : y ∈ g.ops) {w : Value} (hw : w ∈ y.deepOperands) {d : Nat}
    (hd : w.getDefiningOp = some d) : d < retName := by
  obtain ⟨w', hw', hww'⟩ := Operation.mem_deepOperands.1 hw
  cases w with
  | result c i =>
    cases hd
    exact hl.closed w' (Func.walk_subset hy hw') _ hww' _ i rfl
  | arg i => cases hd

theorem terminator_not_mem_ops (hl : Layout g retName dupOutputs mds) {md : FunctionMetadata}
    (hmd : md ∈ mds) : g.terminator.name ∉ md.ops := fun ht => by
  have := Func.names_nodup hl.wf.nodup
  rw [names_eq] at this
  exact (nodup_append.1 this).2.2 (hl.ops_body md hmd _ ht) (mem_singleton_self _)

theorem before_terminator {n : Nat} (hn : n ∈ g.body.map Operation.name) :
    Before g.names n g.terminator.name := by
  rw [names_eq]; exact before_append hn (mem_singleton_self _)

/-- An output of entry `j` used by an op `y` outside the entry: `y` comes after the entry. -/
theorem anchor_before (hl : Layout g retName dupOutputs mds) {j : Nat} {md : FunctionMetadata}
    (hj : mds[j]? = some md) {w : Value} (hw : w ∈ md.results) {y : Operation} (hy : y ∈ g.ops)
    (hyj : y.name ∉ md.ops) (hwy : w ∈ y.deepOperands) :
    Before g.names (anchorOf mds j) y.name := by
  have hmd := getElem?_mem hj
  obtain ⟨⟨n, hn, hd⟩, -⟩ := (hl.results md hmd w).1 hw
  have hny : Before g.names n y.name := hl.wf.dep y.name n
    ⟨w, by rw [Func.opOf_eq_of_mem hl.wf.nodup hy]; exact hwy, hd⟩ (mem_map_of_mem _ hy)
    (mem_names_of_mem_body (hl.ops_body md hmd n hn))
  exact infix_all_before (hl.contig md hmd) (Func.names_nodup hl.wf.nodup) hyj hn hny _
    (hl.exists_anchor hj).2

/-- A value defined by a handle `d` of `g` outside entry `md` and used by the entry's op `y`
    comes before the entry's last op. -/
theorem before_anchor (hl : Layout g retName dupOutputs mds) {k : Nat} {md : FunctionMetadata}
    (hk : mds[k]? = some md) {d y : Nat} (hd : d ∉ md.ops) (hy : y ∈ md.ops)
    (h : Before g.names d y) : Before g.names d (anchorOf mds k) :=
  infix_before_all (hl.contig md (getElem?_mem hk)) (Func.names_nodup hl.wf.nodup) hd hy h _
    (hl.exists_anchor hk).2

theorem slot_lt_slot (hl : Layout g retName dupOutputs mds) {a b : Nat}
    (h : Before g.names a b) : g.names.indexOf a < g.names.indexOf b :=
  (indexOf_lt_iff_before (Func.names_nodup hl.wf.nodup) h.mem_left h.mem_right).2 h

end Layout

namespace Rewritten

variable {g : Func} {retName : Nat} {dupOutputs : Bool} {mds : List FunctionMetadata} {g₂ : Func}

theorem terminator_name (hr : Rewritten g retName mds g₂) :
    g₂.terminator.name = g.terminator.name := by
  obtain ⟨T, hT, -⟩ := hr.terminator
  rw [hT, Operation.name_withOperands]

/-- The handles of the rewritten body are the calls' and the kept ops'. -/
theorem mem_body_names (hr : Rewritten g retName mds g₂) {d : Nat} :
    d ∈ g₂.body.map Operation.name ↔
      (∃ k < mds.length, d = retName + 1 + k) ∨ d ∈ (keptOps g mds).map Operation.name := by
  obtain ⟨cs, hcsn, -, hperm⟩ := hr.calls
  rw [(hperm.map Operation.name).mem_iff, map_append, mem_append, hcsn, map_map]
  simp only [mem_map, mem_range, Function.comp_def, Operation.name_mapOperands, eq_comm (a := d)]

/-- A handle of the rewritten function is a call's, a kept op's, or the terminator's. -/
theorem mem_names (hr : Rewritten g retName mds g₂) {d : Nat} (hd : d ∈ g₂.names) :
    (∃ k < mds.length, d = retName + 1 + k) ∨ d ∈ (keptOps g mds).map Operation.name ∨
      d = g.terminator.name := by
  rw [Layout.names_eq, hr.terminator_name, mem_append, mem_singleton] at hd
  rcases hd with hd | hd
  · exact (hr.mem_body_names.1 hd).imp_right Or.inl
  · exact Or.inr (Or.inr hd)

/-- A handle of the rewritten function below the calls is a handle of `g` in no entry. -/
theorem mem_names_of_lt (hl : Layout g retName dupOutputs mds) (hr : Rewritten g retName mds g₂)
    {d : Nat} (hd : d ∈ g₂.names) (hlt : d < retName + 1) :
    d ∈ g.names ∧ ∀ md ∈ mds, d ∉ md.ops := by
  rcases hr.mem_names hd with ⟨k, -, rfl⟩ | hd | rfl
  · omega
  · obtain ⟨o, ho, rfl⟩ := mem_map.1 hd
    exact ⟨Layout.mem_names_of_mem_body (mem_map_of_mem _ (mem_keptOps.1 ho).1),
      (mem_keptOps.1 ho).2⟩
  · exact ⟨by rw [Layout.names_eq]; simp, fun md hmd => hl.terminator_not_mem_ops hmd⟩

/-- The rewritten function's handles are distinct: the calls' are new, the others are those
    of `g`. -/
theorem namesNodup (hl : Layout g retName dupOutputs mds) (hr : Rewritten g retName mds g₂) :
    g₂.NamesNodup := by
  obtain ⟨cs, hcsn, hcs, hperm⟩ := hr.calls
  obtain ⟨T, hT, -⟩ := hr.terminator
  have hcw : cs.flatMap (fun o => o.walk.map Operation.name) = cs.map Operation.name :=
    flatMap_eq_map_of_forall fun c hc => by
      obtain ⟨k, md, us, -, rfl, -⟩ := hcs c hc
      simp [Operation.walk_mk]
  have htw : g₂.terminator.walk.map Operation.name = g.terminator.walk.map Operation.name := by
    rw [Operation.walk_of_regions_nil (by rw [hT, Operation.regions_withOperands]; exact hl.ret),
      Operation.walk_of_regions_nil hl.ret, map_singleton, map_singleton, hr.terminator_name]
  have hwalk : g₂.walk.map Operation.name ~ cs.map Operation.name ++
      ((keptOps g mds ++ [g.terminator]).flatMap fun o => o.walk.map Operation.name) := by
    have hkw : (((keptOps g mds).map (·.mapOperands (callValue (retName + 1) mds))).flatMap
        fun o => o.walk.map Operation.name) =
        (keptOps g mds).flatMap fun o => o.walk.map Operation.name := by
      simp [flatMap_map, Function.comp_def, Operation.walk_names_mapOperands]
    have := (hperm.append_right [g₂.terminator]).flatMap_right fun o => o.walk.map Operation.name
    simpa [Func.walk, Func.ops, Operation.walkList_eq_flatMap, map_flatMap, hcw, htw, hkw,
      flatMap_append] using this
  have hsub : (keptOps g mds ++ [g.terminator]).flatMap (fun o => o.walk.map Operation.name) <+
      g.walk.map Operation.name := by
    have hkt : keptOps g mds ++ [g.terminator] =
        g.ops.filter fun o => o.name ∉ mds.flatMap fun md => md.ops.reverse := by
      have ht : decide (g.terminator.name ∉ mds.flatMap fun md => md.ops.reverse) = true :=
        decide_eq_true fun h => by
          obtain ⟨md, hmd, ht⟩ := mem_flatMap.1 h
          exact hl.terminator_not_mem_ops hmd (mem_reverse.1 ht)
      simp only [keptOps, Func.ops, filter_append, filter_singleton, ht, cond_true]
    rw [hkt, Func.walk, Operation.walkList_eq_flatMap, map_flatMap]
    exact flatMap_sublist_flatMap _ (filter_sublist _)
  have hg := hl.wf.nodup
  refine hwalk.nodup_iff.2 (nodup_append.2 ⟨?_, hg.sublist hsub, fun a ha ha' => ?_⟩)
  · rw [hcsn]
    exact (nodup_range _).map fun a b e => Nat.add_left_cancel e
  · rw [hcsn] at ha
    obtain ⟨k, -, rfl⟩ := mem_map.1 ha
    obtain ⟨w, hw, e⟩ := mem_map.1 (hsub.subset ha')
    have := hl.fresh w hw
    omega

theorem terminator_lt (hl : Layout g retName dupOutputs mds) :
    g.terminator.name < retName + 1 :=
  Nat.lt_succ_of_lt (hl.fresh _ (Func.ops_subset_walk (mem_append_right _ (mem_singleton_self _))))

/-- The terminator stands after every op of the rewritten body. -/
theorem slot_lt_terminator (hl : Layout g retName dupOutputs mds) (hr : Rewritten g retName mds g₂)
    {n : Nat} (hn : n ∈ g₂.body.map Operation.name) :
    slot g (retName + 1) mds n < slot g (retName + 1) mds g.terminator.name := by
  rw [Layout.slot_of_lt (terminator_lt hl)]
  rcases hr.mem_body_names.1 hn with ⟨k, hk, rfl⟩ | hn'
  · rw [Layout.slot_call]
    have := hl.slot_lt_slot (Layout.before_terminator (hl.ops_body _ (getElem_mem hk) _
      (hl.exists_anchor (getElem?_eq_getElem hk)).2))
    omega
  · obtain ⟨o, ho, rfl⟩ := mem_map.1 hn'
    have hb := mem_map_of_mem Operation.name (mem_keptOps.1 ho).1
    rw [Layout.slot_of_lt (Nat.lt_succ_of_lt (hl.name_lt_of_mem_body hb))]
    have := hl.slot_lt_slot (Layout.before_terminator hb)
    omega

/-- **A value an op of the rewritten function uses is defined at an earlier slot.** A call
    takes the results of calls of entries before its own and of ops before its entry; an op
    outside the entries takes results of calls of entries before it and of ops before it;
    the terminator comes after every other op. -/
theorem slot_lt_of_uses (hl : Layout g retName dupOutputs mds) (hr : Rewritten g retName mds g₂)
    {u d : Nat} (hu : u ∈ g₂.names) (hd : d ∈ g₂.names) (huse : g₂.Uses u d) :
    slot g (retName + 1) mds d < slot g (retName + 1) mds u := by
  obtain ⟨v, hv, hvd⟩ := huse
  obtain ⟨cs, -, hcs, hperm⟩ := hr.calls
  obtain ⟨T, hT, hTR⟩ := hr.terminator
  -- an operand no rewriting touched is defined by an op of `g` in no entry, before its user
  have hplain : ∀ {y : Operation}, y ∈ g.ops → ∀ {w : Value}, w ∈ y.deepOperands →
      w.getDefiningOp = some d →
      d < retName ∧ (∀ md ∈ mds, d ∉ md.ops) ∧ Before g.names d y.name :=
      fun {y} hy {w} hw hwd => by
    have hlt := hl.lt_of_mem_deepOperands hy hw hwd
    obtain ⟨hdg, hdm⟩ := hr.mem_names_of_lt hl hd (by omega)
    exact ⟨hlt, hdm, hl.wf.dep y.name d
      ⟨w, by rw [Func.opOf_eq_of_mem hl.wf.nodup hy]; exact hw, hwd⟩ (mem_map_of_mem _ hy) hdg⟩
  have ho : g₂.opOf u ∈ g₂.ops := Func.opOf_mem hu
  simp only [Func.ops, mem_append, mem_singleton] at ho
  rcases ho with ho | ho
  · rcases mem_append.1 (hperm.mem_iff.1 ho) with hc | hx
    · -- a call: its operands stand for its entry's inputs
      obtain ⟨k, md, us, hk, hc', hus⟩ := hcs _ hc
      have hku : u = retName + 1 + k := by rw [← Func.opOf_name u, hc']; rfl
      rw [hc', show (Operation.mk (retName + 1 + k) us [] []).deepOperands = us from
        Operation.deepOperands_of_regions_nil rfl] at hv
      rw [hku, Layout.slot_call]
      obtain ⟨w, hw, hrep⟩ := exists_of_forall₂_mem hus hv
      have hmd := getElem?_mem hk
      obtain ⟨⟨y, hy, hwy⟩, -⟩ := (hl.inputs md hmd w).1 hw
      have hyg : g.opOf y ∈ g.ops := Func.opOf_mem (Layout.mem_names_of_mem_body
        (hl.ops_body md hmd y hy))
      rcases hrep with ⟨rfl, -⟩ | ⟨j, md', i, hj, hi, rfl⟩
      · obtain ⟨hlt, hdm, hbef⟩ := hplain hyg hwy hvd
        rw [Func.opOf_name] at hbef
        have := hl.slot_lt_slot (hl.before_anchor hk (hdm md hmd) hy hbef)
        rw [Layout.slot_of_lt (Nat.lt_succ_of_lt hlt)]
        omega
      · -- the result of another entry's call: that entry comes before
        simp only [Value.getDefiningOp, Option.some.injEq] at hvd
        subst hvd
        rw [Layout.slot_call]
        have hmd' := getElem?_mem hj
        have hwj : w ∈ md'.results := getElem?_mem hi
        obtain ⟨⟨n, hn, hwn⟩, -⟩ := (hl.results md' hmd' w).1 hwj
        have hdisj := hl.disjoint_of_mem_inputs hmd hmd' hw hn hwn
        have h₁ := hl.anchor_before hj hwj hyg (by rw [Func.opOf_name]; exact fun h => hdisj h hy)
          hwy
        rw [Func.opOf_name] at h₁
        have := hl.slot_lt_slot
          (hl.before_anchor hk (fun h => hdisj (hl.exists_anchor hj).2 h) hy h₁)
        omega
    · -- an op outside the entries, with its operands replaced
      obtain ⟨x, hxk, hxe⟩ := mem_map.1 hx
      have hxu : x.name = u := by rw [← Func.opOf_name u, ← hxe, Operation.name_mapOperands]
      obtain ⟨hxb, hxm⟩ := mem_keptOps.1 hxk
      have hxg : x ∈ g.ops := mem_append_left _ hxb
      rw [← hxe, Operation.deepOperands_mapOperands] at hv
      obtain ⟨w, hw, rfl⟩ := mem_map.1 hv
      rw [← hxu, Layout.slot_of_lt (Nat.lt_succ_of_lt (hl.name_lt_of_mem_body
        (mem_map_of_mem _ hxb)))]
      rcases replaced_callValue (retName + 1) mds w with ⟨he, -⟩ | ⟨j, md', i, hj, hi, he⟩
      · rw [he] at hvd
        obtain ⟨hlt, -, hbef⟩ := hplain hxg hw hvd
        rw [Layout.slot_of_lt (Nat.lt_succ_of_lt hlt)]
        have := hl.slot_lt_slot hbef
        omega
      · rw [he] at hvd
        simp only [Value.getDefiningOp, Option.some.injEq] at hvd
        subst hvd
        rw [Layout.slot_call]
        have := hl.slot_lt_slot
          (hl.anchor_before hj (getElem?_mem hi) hxg (hxm md' (getElem?_mem hj)) hw)
        omega
  · -- the terminator
    have hut : u = g.terminator.name := by rw [← Func.opOf_name u, ho, hr.terminator_name]
    rw [ho, hT, Operation.deepOperands_of_regions_nil (by simp [hl.ret]),
      Operation.operands_withOperands] at hv
    obtain ⟨w, hw, hrep⟩ := exists_of_forall₂_mem hTR hv
    have hdt : d ≠ g.terminator.name := by
      rcases hrep with ⟨rfl, -⟩ | ⟨j, md', i, -, -, rfl⟩
      · have htg : g.terminator ∈ g.ops := mem_append_right _ (mem_singleton_self _)
        exact (hplain htg (by rw [Operation.deepOperands_of_regions_nil hl.ret]; exact hw)
          hvd).2.2.ne (Func.names_nodup hl.wf.nodup)
      · simp only [Value.getDefiningOp, Option.some.injEq] at hvd
        have := terminator_lt hl
        omega
    have hdb : d ∈ g₂.body.map Operation.name := by
      rw [Layout.names_eq, hr.terminator_name, mem_append, mem_singleton] at hd
      exact hd.resolve_right hdt
    rw [hut]
    exact hr.slot_lt_terminator hl hdb

/-- **The rewritten function is well formed**: its handles are distinct, and every value an
    op uses is defined by an earlier op. -/
theorem wellFormed (hl : Layout g retName dupOutputs mds) (hr : Rewritten g retName mds g₂) :
    WellFormed g₂ := by
  refine ⟨hr.namesNodup hl, fun u d huse hu hd => ?_⟩
  have hsorted : (g₂.names.map (slot g (retName + 1) mds)).Pairwise (· < ·) := by
    rw [Layout.names_eq, hr.terminator_name, map_append, map_map, pairwise_append]
    refine ⟨hr.sorted, pairwise_singleton _ _, fun a ha b hb => ?_⟩
    obtain ⟨o, ho, rfl⟩ := mem_map.1 ha
    rw [map_singleton, mem_singleton] at hb
    rw [hb]
    exact hr.slot_lt_terminator hl (mem_map_of_mem _ ho)
  exact before_of_lt hsorted hd hu (hr.slot_lt_of_uses hl hu hd huse)

end Rewritten

/-! ## The created functions -/

theorem foldl_cons_eq_reverse {α β : Type} (f : α → β) :
    ∀ (l : List α) (acc : List β), l.foldl (fun m p => f p :: m) acc = (l.map f).reverse ++ acc
  | [], _ => rfl
  | x :: l, acc => by rw [foldl_cons, foldl_cons_eq_reverse f l]; simp

/-- The mapping of `createFunctions` sends an input to the argument at one of its positions
    and leaves every other value. -/
theorem lookupOrDefault_argMapping (inputs : List Value) (w : Value) :
    (∃ i, inputs[i]? = some w ∧
      lookupOrDefault (inputs.enum.foldl (fun m p => (p.2, Value.arg p.1) :: m) []) w =
        .arg i) ∨
    (w ∉ inputs ∧
      lookupOrDefault (inputs.enum.foldl (fun m p => (p.2, Value.arg p.1) :: m) []) w = w) := by
  rw [foldl_cons_eq_reverse (fun p : Nat × Value => (p.2, Value.arg p.1)), append_nil]
  rcases lookupOrDefault_cases ((inputs.enum.map fun p => (p.2, Value.arg p.1)).reverse) w
    with h | ⟨h, e⟩
  · obtain ⟨⟨i, w'⟩, hp, e⟩ := mem_map.1 (mem_reverse.1 h)
    simp only [Prod.mk.injEq] at e
    obtain ⟨rfl, he⟩ := e
    obtain ⟨hi, hw⟩ := mem_enum hp
    exact Or.inl ⟨i, by rw [hw]; exact getElem?_eq_getElem hi, he.symm⟩
  · refine Or.inr ⟨fun hw => h ?_, e⟩
    obtain ⟨i, hi⟩ := mem_iff_getElem?.1 hw
    refine mem_map.2 ⟨(w, .arg i), mem_reverse.2 (mem_map.2 ⟨(i, w), ?_, rfl⟩), rfl⟩
    exact mem_iff_getElem?.2 ⟨i, by simp [getElem?_enum, hi]⟩

namespace Layout

variable {g : Func} {retName : Nat} {dupOutputs : Bool} {mds : List FunctionMetadata}

/-- The ops of an entry are a sublist of the block. -/
theorem ops_sublist (hl : Layout g retName dupOutputs mds) {md : FunctionMetadata}
    (hmd : md ∈ mds) : md.ops.map g.opOf <+ g.ops := by
  obtain ⟨l', hl', e⟩ := sublist_map_iff.1 (show md.ops <+ g.ops.map Operation.name from
    (hl.contig md hmd).sublist)
  rw [e, map_map]
  exact ((map_congr_left fun o ho => Func.opOf_eq_of_mem hl.wf.nodup (hl'.subset ho)).trans
    (map_id _)).symm ▸ hl'

/-- The results of an entry are none of its inputs, so `createFunctions` returns them
    unrenamed. -/
theorem lookupOrDefault_result (hl : Layout g retName dupOutputs mds) {md : FunctionMetadata}
    (hmd : md ∈ mds) {r : Value} (hr : r ∈ md.results) :
    lookupOrDefault (md.inputs.enum.foldl (fun m p => (p.2, Value.arg p.1) :: m) []) r = r := by
  rcases lookupOrDefault_argMapping md.inputs r with ⟨i, hi, -⟩ | ⟨-, e⟩
  · obtain ⟨⟨n, hn, hrn⟩, -⟩ := (hl.results md hmd r).1 hr
    have := ((hl.inputs md hmd r).1 (getElem?_mem hi)).2 n hn
    rw [Operation.defines_of_getDefiningOp (by rw [Func.opOf_name]; exact hrn)] at this
    cases this
  · exact e

theorem names_createFunction (g : Func) (retName : Nat) (md : FunctionMetadata) :
    (createFunction g retName md).names = md.ops ++ [retName] := by
  simp [createFunction, Func.names, Func.ops, Function.comp_def, Operation.name_mapOperands,
    Operation.name_mk]

/-- **Each created function is well formed**: its ops are the entry's, with distinct
    handles, in the block's order, and the return comes last. -/
theorem wellFormed_createFunction (hl : Layout g retName dupOutputs mds) {md : FunctionMetadata}
    (hmd : md ∈ mds) : WellFormed (createFunction g retName md) := by
  have hnd := hl.wf.nodup
  have hops := hl.ops_sublist hmd
  have hsub := flatMap_sublist_flatMap (fun o => o.walk.map Operation.name) hops
  have hnd₁ : (createFunction g retName md).NamesNodup := by
    have hw : (createFunction g retName md).walk.map Operation.name =
        (md.ops.map g.opOf).flatMap (fun o => o.walk.map Operation.name) ++ [retName] := by
      simp [createFunction, Func.walk, Func.ops, Operation.walkList_eq_flatMap, map_flatMap,
        flatMap_map, Operation.walk_names_mapOperands, Operation.walk_mk]
    have hg : (g.ops.flatMap fun o => o.walk.map Operation.name).Nodup := by
      simpa [Func.NamesNodup, Func.walk, Operation.walkList_eq_flatMap, map_flatMap] using hnd
    unfold Func.NamesNodup
    rw [hw]
    refine nodup_append.2 ⟨hg.sublist hsub, nodup_singleton _, fun a ha ha' => ?_⟩
    obtain ⟨o, ho, w, hw', rfl⟩ : ∃ o ∈ g.ops, ∃ w ∈ o.walk, w.name = a := by
      simpa using hsub.subset ha
    have := hl.fresh w (Func.walk_subset ho hw')
    rw [mem_singleton.1 ha'] at this
    exact Nat.lt_irrefl _ this
  refine ⟨hnd₁, fun u d ⟨v, hv, hvd⟩ hu hd => ?_⟩
  rw [names_createFunction] at hu hd ⊢
  rcases mem_append.1 hu with hu | hu
  · -- an op of the entry: its operands are renamed only to arguments
    have hug : g.opOf u ∈ g.ops := Func.opOf_mem (mem_names_of_mem_body (hl.ops_body md hmd u hu))
    have hop : (createFunction g retName md).opOf u =
        (g.opOf u).mapOperands (lookupOrDefault (md.inputs.enum.foldl
          (fun m p => (p.2, Value.arg p.1) :: m) [])) := by
      have := Func.opOf_eq_of_mem hnd₁ (o := (g.opOf u).mapOperands _)
        (by simp only [createFunction, Func.ops]; exact mem_append_left _ (mem_map_of_mem _ hu))
      rwa [Operation.name_mapOperands, Func.opOf_name] at this
    rw [hop, Operation.deepOperands_mapOperands] at hv
    obtain ⟨w, hw, rfl⟩ := mem_map.1 hv
    rcases lookupOrDefault_argMapping md.inputs w with ⟨i, -, e⟩ | ⟨-, e⟩
    · rw [e] at hvd; cases hvd
    rw [e] at hvd
    have hdlt := hl.lt_of_mem_deepOperands hug hw hvd
    have hdm : d ∈ md.ops := (mem_append.1 hd).resolve_right fun h => by
      rw [mem_singleton.1 h] at hdlt; exact Nat.lt_irrefl _ hdlt
    have hbef : Before g.names d u := hl.wf.dep u d ⟨w, hw, hvd⟩
      (mem_names_of_mem_body (hl.ops_body md hmd u hu))
      (mem_names_of_mem_body (hl.ops_body md hmd d hdm))
    exact (hbef.of_sublist (hl.contig md hmd).sublist (Func.names_nodup hnd) hdm hu).mono
      (sublist_append_left _ _)
  · -- the return: it returns the entry's results, defined by the entry's ops
    rw [mem_singleton.1 hu] at hv ⊢
    have hop : (createFunction g retName md).opOf retName = .mk retName (md.results.map
        (lookupOrDefault (md.inputs.enum.foldl (fun m p => (p.2, Value.arg p.1) :: m) [])))
        [] [] := by
      have := Func.opOf_eq_of_mem hnd₁ (o := Operation.mk retName _ [] [])
        (by simp only [createFunction, Func.ops]; exact mem_append_right _ (mem_singleton_self _))
      exact this
    rw [hop, show (Operation.mk retName (md.results.map (lookupOrDefault (md.inputs.enum.foldl
      (fun m p => (p.2, Value.arg p.1) :: m) []))) [] []).deepOperands = _ from
      Operation.deepOperands_of_regions_nil rfl] at hv
    obtain ⟨r, hr, rfl⟩ := mem_map.1 hv
    rw [hl.lookupOrDefault_result hmd hr] at hvd
    obtain ⟨⟨n, hn, hrn⟩, -⟩ := (hl.results md hmd r).1 hr
    rw [hrn, Option.some.injEq] at hvd
    subst hvd
    exact before_append hn (mem_singleton_self _)

end Layout

end GraphClustering
