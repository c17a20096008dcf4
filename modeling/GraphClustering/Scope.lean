/-
  The rewritten function and the created functions define every value before its first use.

  `WellFormed` orders a use after its definition only when an op of the block defines the
  value; it does not say that the value is defined. `Func.DefinesBeforeUse` does: a value an
  op uses is an argument, a result of an earlier op of the block, or a result of an op nested
  in the using op. It splits into `WellFormed` and the order-free `Func.Scoped`.

  * `WellFormed.definesBeforeUse`: a well-formed function that scopes its values defines each
    before its first use;
  * `Rewritten.func_scoped`: the rewrite keeps every value scoped: the operands it does not
    replace are defined by ops it keeps, and those it replaces are results of calls;
  * `Layout.scoped_createFunction`: so is every value of a created function;
  * `Layout.definesBeforeUse`: both define every value before its first use.
-/
import GraphClustering.Equivalence

namespace GraphClustering

open List

/-! ## Defined before the first use -/

/-- Every value an op of `f`, or an op nested in it, uses is an argument of `f`, a result of
    an op of the block, or a result of an op nested in the same op: a value defined inside an
    op is not used outside it. -/
def Func.Scoped (f : Func) : Prop :=
  ∀ o ∈ f.ops, ∀ v ∈ o.deepOperands, ∀ d ∈ v.getDefiningOp,
    d ∈ f.names ∨ d ∈ o.walk.map Operation.name

/-- `f` defines every value before its first use: every value an op of the block, or an op
    nested in it, uses is an argument of `f`, a result of an earlier op of the block, or a
    result of an op nested in the using op. -/
def Func.DefinesBeforeUse (f : Func) : Prop :=
  ∀ o ∈ f.ops, ∀ v ∈ o.deepOperands, ∀ d ∈ v.getDefiningOp,
    Before f.names d o.name ∨ d ∈ (Operation.walkList o.regions).map Operation.name

instance (f : Func) : Decidable f.DefinesBeforeUse :=
  inferInstanceAs (Decidable (∀ o ∈ f.ops, ∀ v ∈ o.deepOperands, ∀ d ∈ v.getDefiningOp, _))

theorem Operation.walk_eq_cons (op : Operation) : op.walk = op :: walkList op.regions := by
  cases op; exact walk_mk ..

theorem Operation.defines_of_mem_walk {op : Operation} {v : Value} {d : Nat}
    (hd : v.getDefiningOp = some d) (h : d ∈ op.walk.map Operation.name) : op.defines v = true := by
  obtain ⟨w, hw, rfl⟩ := mem_map.1 h
  exact any_eq_true.2 ⟨w, hw, by simp [hd]⟩

theorem Func.DefinesBeforeUse.toScoped {f : Func} (h : f.DefinesBeforeUse) : f.Scoped :=
  fun o ho v hv d hd => (h o ho v hv d hd).imp Before.mem_left fun h' => by
    rw [Operation.walk_eq_cons, map_cons]; exact mem_cons_of_mem _ h'

/-- A value defined by an op of the block is used after it (`WellFormed`); one defined by a
    nested op is, in a scoped function, used only inside that op. -/
theorem WellFormed.definesBeforeUse {f : Func} (hwf : WellFormed f) (hs : f.Scoped) :
    f.DefinesBeforeUse := by
  intro o ho v hv d hd
  have hon : o.name ∈ f.names := mem_map_of_mem _ ho
  by_cases hdn : d ∈ f.names
  · exact .inl (hwf.dep o.name d ⟨v, by rw [Func.opOf_eq_of_mem hwf.nodup ho]; exact hv, hd⟩ hon hdn)
  · have h := (hs o ho v hv d hd).resolve_left hdn
    rw [Operation.walk_eq_cons, map_cons, mem_cons] at h
    exact .inr (h.resolve_left fun e => hdn (e ▸ hon))

/-- The order-free part survives a reordering of the body. -/
theorem Func.Scoped.of_perm {f g : Func} (h : f.Scoped) (hb : g.body ~ f.body)
    (ht : g.terminator = f.terminator) : g.Scoped := by
  have hops : g.ops ~ f.ops := by simp only [Func.ops, ht]; exact hb.append_right _
  exact fun o ho v hv d hd =>
    (h o (hops.mem_iff.1 ho) v hv d hd).imp_left (hops.map Operation.name).mem_iff.2

/-! ## The rewritten function -/

namespace Rewritten

variable {g : Func} {retName : Nat} {dupOutputs : Bool} {mds : List FunctionMetadata} {g₂ : Func}

/-- An op of `g` in no entry keeps its handle in the rewritten function. -/
theorem mem_names_of_kept (hr : Rewritten g retName mds g₂) {d : Nat} (hd : d ∈ g.names)
    (hdm : ∀ md ∈ mds, d ∉ md.ops) : d ∈ g₂.names := by
  rw [Layout.names_eq, mem_append, mem_singleton] at hd ⊢
  rcases hd with hd | hd
  · obtain ⟨o, ho, rfl⟩ := mem_map.1 hd
    exact .inl (hr.mem_body_names.2 (.inr (mem_map_of_mem _ (mem_keptOps.2 ⟨ho, hdm⟩))))
  · exact .inr (hd.trans hr.terminator_name.symm)

/-- What the rewrite put in place of `w` is `w`, the output of no entry, or a result of a
    call. -/
theorem replaced_defined (hr : Rewritten g retName mds g₂) {w u : Value}
    (h : Replaced (retName + 1) mds w u) {d : Nat} (hd : u.getDefiningOp = some d) :
    (u = w ∧ ∀ md ∈ mds, w ∉ md.results) ∨ d ∈ g₂.names := by
  rcases h with h | ⟨k, md, i, hk, -, rfl⟩
  · exact .inl h
  · cases hd
    exact .inr (Layout.mem_names_of_mem_body
      (hr.mem_body_names.2 (.inl ⟨k, (getElem?_eq_some_iff.1 hk).1, rfl⟩)))

/-- A value that an op `y` in no entry uses, and that no entry outputs, is defined by an op
    the rewrite keeps or nested in `y`: a result of an entry's op used outside the entry is
    an output. -/
theorem kept_use_defined (hl : Layout g retName dupOutputs mds) (hr : Rewritten g retName mds g₂)
    (hs : g.Scoped) {y : Operation} (hy : y ∈ g.ops) (hym : ∀ md ∈ mds, y.name ∉ md.ops)
    {w : Value} (hw : w ∈ y.deepOperands) (hwo : ∀ md ∈ mds, w ∉ md.results) {d : Nat}
    (hd : w.getDefiningOp = some d) : d ∈ g₂.names ∨ d ∈ y.walk.map Operation.name :=
  (hs y hy w hw d hd).imp_left fun hdg => hr.mem_names_of_kept hdg fun md hmd hdm =>
    hwo md hmd ((hl.results md hmd w).2 ⟨⟨d, hdm, hd⟩, y, hy, hym md hmd, hw⟩)

/-- An input of an entry that no entry outputs is defined by an op the rewrite keeps: an op
    of its own entry does not define it, and one of another entry would output it. -/
theorem input_defined (hl : Layout g retName dupOutputs mds) (hr : Rewritten g retName mds g₂)
    (hs : g.Scoped) {md : FunctionMetadata} (hmd : md ∈ mds) {w : Value} (hw : w ∈ md.inputs)
    (hwo : ∀ md ∈ mds, w ∉ md.results) {d : Nat} (hd : w.getDefiningOp = some d) :
    d ∈ g₂.names := by
  obtain ⟨⟨n, hn, hwn⟩, hnd⟩ := (hl.inputs md hmd w).1 hw
  have hng : g.opOf n ∈ g.ops :=
    Func.opOf_mem (Layout.mem_names_of_mem_body (hl.ops_body md hmd n hn))
  rcases hs _ hng w hwn d hd with hdg | hdn
  · exact hr.mem_names_of_kept hdg fun md' hmd' hdm =>
      hwo md' hmd' (hl.mem_results_of_mem_inputs hmd hmd' hw hdm hd)
  · have := hnd n hn
    rw [Operation.defines_of_mem_walk hd hdn] at this
    cases this

/-- **The rewrite keeps every value scoped.** A call's operands are inputs defined by ops the
    rewrite keeps, or results of calls; an op outside the entries uses its own values, values
    of kept ops, or results of calls; so does the terminator. -/
theorem func_scoped (hl : Layout g retName dupOutputs mds) (hr : Rewritten g retName mds g₂)
    (hs : g.Scoped) : g₂.Scoped := by
  obtain ⟨cs, -, hcs, hperm⟩ := hr.calls
  obtain ⟨T, hT, hTR⟩ := hr.terminator
  intro o ho v hv d hd
  simp only [Func.ops, mem_append, mem_singleton] at ho
  rcases ho with ho | rfl
  · rcases mem_append.1 (hperm.mem_iff.1 ho) with hc | hx
    · -- a call: its operands stand for its entry's inputs
      obtain ⟨k, md, us, hk, rfl, hus⟩ := hcs o hc
      rw [@Operation.deepOperands_of_regions_nil (.mk _ us [] []) rfl] at hv
      obtain ⟨w, hw, hrep⟩ := exists_of_forall₂_mem hus hv
      rcases hr.replaced_defined hrep hd with ⟨rfl, hwo⟩ | h
      · exact .inl (hr.input_defined hl hs (getElem?_mem hk) hw hwo hd)
      · exact .inl h
    · -- an op outside the entries, with the outputs replaced
      obtain ⟨x, hxk, rfl⟩ := mem_map.1 hx
      obtain ⟨hxb, hxm⟩ := mem_keptOps.1 hxk
      rw [Operation.deepOperands_mapOperands] at hv
      obtain ⟨w, hw, rfl⟩ := mem_map.1 hv
      rw [Operation.walk_names_mapOperands]
      rcases hr.replaced_defined (replaced_callValue _ _ w) hd with ⟨he, hwo⟩ | h
      · rw [he] at hd
        exact hr.kept_use_defined hl hs (mem_append_left _ hxb) hxm hw hwo hd
      · exact .inl h
  · -- the terminator, with the outputs replaced
    have hn : g₂.terminator.name ∈ g₂.names := by
      rw [Layout.names_eq]; exact mem_append_right _ (mem_singleton_self _)
    rw [hT, Operation.deepOperands_of_regions_nil (by simp [hl.ret]),
      Operation.operands_withOperands] at hv
    obtain ⟨w, hw, hrep⟩ := exists_of_forall₂_mem hTR hv
    rcases hr.replaced_defined hrep hd with ⟨rfl, hwo⟩ | h
    · have htg : g.terminator ∈ g.ops := mem_append_right _ (mem_singleton_self _)
      rcases hr.kept_use_defined hl hs htg (fun md hmd => hl.terminator_not_mem_ops hmd)
        (by rw [Operation.deepOperands_of_regions_nil hl.ret]; exact hw) hwo hd with h | h
      · exact .inl h
      · rw [Operation.walk_of_regions_nil hl.ret, map_singleton, mem_singleton] at h
        rw [h, ← hr.terminator_name]
        exact .inl hn
    · exact .inl h

end Rewritten

/-! ## The created functions -/

namespace Layout

variable {g : Func} {retName : Nat} {dupOutputs : Bool} {mds : List FunctionMetadata}

/-- **Each created function scopes every value.** A clone of an op of the entry uses
    arguments (the entry's inputs), its own values, or results of the entry's ops (an op of
    the block nested in another is none); the return returns the entry's results. -/
theorem scoped_createFunction (hl : Layout g retName dupOutputs mds) {md : FunctionMetadata}
    (hmd : md ∈ mds) (hs : g.Scoped) : (createFunction g retName md).Scoped := by
  intro o ho v hv d hd
  rw [names_createFunction]
  simp only [createFunction, Func.ops, mem_append, mem_map, mem_singleton] at ho
  rcases ho with ⟨n, hn, rfl⟩ | rfl
  · -- a clone of an op of the entry
    have hng : g.opOf n ∈ g.ops :=
      Func.opOf_mem (mem_names_of_mem_body (hl.ops_body md hmd n hn))
    rw [Operation.deepOperands_mapOperands] at hv
    obtain ⟨w, hw, rfl⟩ := mem_map.1 hv
    rw [Operation.walk_names_mapOperands]
    rcases lookupOrDefault_argMapping md.inputs w with ⟨i, -, e⟩ | ⟨hwi, e⟩
    · rw [e] at hd; cases hd
    rw [e] at hd
    refine (hs _ hng w hw d hd).imp_left fun hdg => mem_append_left _ ?_
    -- not an input, so an op of the entry defines it, and only that op has a handle of `g`
    have : ¬∀ n' ∈ md.ops, (g.opOf n').defines w = false :=
      fun hno => hwi ((hl.inputs md hmd w).2 ⟨⟨n, hn, hw⟩, hno⟩)
    obtain ⟨n', hn', hdef⟩ : ∃ n' ∈ md.ops, (g.opOf n').defines w = true := by
      simpa using this
    obtain ⟨x, hx, hxd⟩ := any_eq_true.1 hdef
    have hdx : d = x.name := by simpa [show w.getDefiningOp = some d from hd] using hxd
    by_cases hxo : x = g.opOf n'
    · rw [hdx, hxo, Func.opOf_name]; exact hn'
    · exact absurd (hdx ▸ hdg) (Func.not_mem_names_of_nested hl.wf.nodup
        (Func.opOf_mem (mem_names_of_mem_body (hl.ops_body md hmd n' hn'))) hx hxo)
  · -- the return: the entry's results, defined by the entry's ops
    rw [@Operation.deepOperands_of_regions_nil (.mk retName _ [] []) rfl] at hv
    obtain ⟨r, hr, rfl⟩ := mem_map.1 hv
    rw [hl.lookupOrDefault_result hmd hr] at hd
    obtain ⟨⟨n, hn, hrn⟩, -⟩ := (hl.results md hmd r).1 hr
    rw [hrn] at hd
    cases hd
    exact .inl (mem_append_left _ hn)

/-- **The rewrite on a layout defines every value before its first use**, in the rewritten
    function and in each created function, when `g` scopes its values. -/
theorem definesBeforeUse (hl : Layout g retName dupOutputs mds) {g₂ : Func}
    (hr : Rewritten g retName mds g₂) (hs : g.Scoped) :
    g₂.DefinesBeforeUse ∧ ∀ fn ∈ createFunctions g retName mds, fn.DefinesBeforeUse :=
  ⟨(hr.wellFormed hl).definesBeforeUse (hr.func_scoped hl hs), forall_mem_map.2 fun _ hmd =>
    (hl.wellFormed_createFunction hmd).definesBeforeUse (hl.scoped_createFunction hmd hs)⟩

end Layout

end GraphClustering
