/-
  `tryMergeInto` and `tryMerge` on a state that satisfies `Inv`, with assertions enabled.

  * `Inv.upHyp` and `Inv.downHyp`: the gap between two root clusters, and what the first
    phase leaves of it, meet the hypotheses of `moveLoop_spec`;
  * `MergeOutcome`: the two things `tryMergeInto` can do, a merge along a `ValidSplit` of
    the gap or giving up when there is none;
  * `tryMergeInto_cases`: `tryMergeInto` does one of them, in both branches of the source
    (`from` before `to`: up phase first; `to` before `from`: down phase first);
  * `Inv.tryMergeInto` and `Inv.tryMerge`: both keep the invariant.
-/
import GraphClustering.Invariant

namespace GraphClustering

open List OpClusterMap

variable {f : Func} {keys : List Nat}

/-! ## The phases on a state of the run -/

section Phases

variable {b : List Nat} {m : OpClusterMap} {T L : List Nat}

theorem Inv.upHyp (hwf : WellFormed f) (h : Inv f keys ⟨b, m⟩) (hL : L <+ b)
    (hC : ∀ o ∈ L, ∀ r, Root m o r → m.ops r <:+: L) :
    LoopHyp (fun S op => (f.opOf op).anyDefIn S) id f.Uses T L L m where
  blocked_iff S o _ := anyDefIn_opOf_iff f S o
  mem_order _ _ := Iff.rfl
  nodup := (h.nodup hwf).sublist hL
  mem_vec _ := Iff.rfl
  dep o x hR ho hx :=
    (h.dep o x hR (hL.subset ho) (hL.subset hx)).of_sublist hL (h.nodup hwf) hx ho
  contig := hC
  mem_ops := h.mem_ops
  root_of_mem := h.root_of_mem
  rooted k hk := h.rooted k ((h.keys_eq : m.keys = keys) ▸ hk)

theorem Inv.downHyp (hwf : WellFormed f) (h : Inv f keys ⟨b, m⟩) (hT : T ⊆ b) (hL : L <+ b)
    (hC : ∀ o ∈ L, ∀ r, Root m o r → m.ops r <:+: L) :
    LoopHyp (fun S op => anyUseIn f op S) reverse (flip f.Uses) T L.reverse L m where
  blocked_iff S o hS := anyUseIn_iff hwf.nodup (fun x hx => h.perm.subset <| by
    rcases mem_append.1 (hS hx) with hx | hx
    · exact hT hx
    · exact hL.subset (mem_reverse.1 hx)) o
  mem_order _ _ := mem_reverse
  nodup := nodup_reverse.2 ((h.nodup hwf).sublist hL)
  mem_vec _ := mem_reverse.symm
  dep o x hR ho hx := before_reverse_iff.2 <|
    (h.dep x o hR (hL.subset (mem_reverse.1 hx)) (hL.subset (mem_reverse.1 ho))).of_sublist hL
      (h.nodup hwf) (mem_reverse.1 ho) (mem_reverse.1 hx)
  contig o ho r hr := (hC o (mem_reverse.1 ho) r hr).reverse
  mem_ops := h.mem_ops
  root_of_mem := h.root_of_mem
  rooted k hk := h.rooted k ((h.keys_eq : m.keys = keys) ▸ hk)

/-- What the first phase leaves of the gap is a sublist of the gap in which the root
    clusters are still contiguous. -/
theorem Inv.residual_contig (hwf : WellFormed f) (h : Inv f keys ⟨b, m⟩) {G : List Nat}
    (hGb : G <+ b) (hgap : ∀ o ∈ G, ∀ r, Root m o r → m.ops r <:+: G) {R : List Nat}
    (hR : R <+ G) (hcl : ∀ o ∈ R, ∀ r, Root m o r → ∀ c ∈ m.ops r, c ∈ R) {m₁ : OpClusterMap}
    (hm₁ : SameForest m m₁) : ∀ o ∈ R, ∀ r, Root m₁ o r → m₁.ops r <:+: R := by
  intro o ho r hr
  rw [hm₁.ops_eq]
  have hr' := (hm₁.root_iff o r).1 hr
  exact infix_of_sublist_of_subset (hgap o (hR.subset ho) r hr') hR (hcl o ho r hr')
    ((h.nodup hwf).sublist hGb)

end Phases

/-! ## `tryMergeInto` -/

/-- The two things `tryMergeInto` can do on a state whose block is `P ++ A ++ G ++ B ++ S`,
    `A` and `B` being the op lists of the two clusters in block order: if the gap `G` has
    a `ValidSplit` `U`, `D`, it moves `U` above `A` and `D` below `B` and puts `A ++ B` on
    `toC`; if it has none, it gives up, having only compressed paths. -/
def MergeOutcome (f : Func) (st : ClusterState) (fromC toC : Nat) (P A G B S : List Nat) :
    Prop :=
  (∃ U D m', ValidSplit f.Uses st.op2cluster A B G U D ∧ U <+ G ∧ D <+ G ∧
      SameForest st.op2cluster m' ∧
      tryMergeInto true f st fromC toC =
        some (true, ⟨P ++ U ++ A ++ B ++ D ++ S, spliceInto m' fromC toC (A ++ B)⟩)) ∨
    ((¬∃ U D, ValidSplit f.Uses st.op2cluster A B G U D) ∧
      ∃ m', SameForest st.op2cluster m' ∧
        tryMergeInto true f st fromC toC = some (false, ⟨st.block, m'⟩))

section Branches

variable {b : List Nat} {m : OpClusterMap} {fromC toC : Nat} {P G S : List Nat}

theorem exists_head_last (h : Inv f keys ⟨b, m⟩) {r : Nat} (hr : IsRoot m r) :
    ∃ x y, (m.ops r).head? = some x ∧ (m.ops r).getLast? = some y :=
  ⟨_, _, head?_eq_head (h.ops_ne_nil hr), getLast?_eq_getLast _ (h.ops_ne_nil hr)⟩

theorem insertAll_ops (hwf : WellFormed f) (h : Inv f keys ⟨b, m⟩) {r r' : Nat}
    (hr : IsRoot m r) (hr' : IsRoot m r') (hne : r ≠ r') {m' : OpClusterMap}
    (hm' : SameForest m m') : insertAll (m'.ops r) (m'.ops r') = m.ops r ++ m.ops r' := by
  rw [insertAll, hm'.ops_eq, hm'.ops_eq, foldl_insertOp_of_nodup]
  exact nodup_append.2 ⟨(h.contig r hr).sublist.nodup (h.nodup hwf),
    (h.contig r' hr').sublist.nodup (h.nodup hwf),
    fun x hx hx' => h.not_mem_ops_of_ne hr hr' hne hx hx'⟩

/-- **`tryMergeInto` when `from` comes first**: the up phase towards `from`, then the down
    phase towards `to` on what is left. -/
theorem tryMergeInto_fromFirst (hwf : WellFormed f) (h : Inv f keys ⟨b, m⟩) (hne : fromC ≠ toC)
    (hf : IsRoot m fromC) (ht : IsRoot m toC)
    (hblk : b = P ++ m.ops fromC ++ G ++ m.ops toC ++ S) :
    MergeOutcome f ⟨b, m⟩ fromC toC P (m.ops fromC) G (m.ops toC) S := by
  have hnd : b.Nodup := h.nodup hwf
  obtain ⟨xf, xb, hxf, hxb⟩ := exists_head_last h hf
  obtain ⟨yf, yb, hyf, hyb⟩ := exists_head_last h ht
  have hbef : isBeforeInBlock b xb yf = true :=
    (isBeforeInBlock_iff hnd (h.mem_block_of_mem_ops (mem_of_getLast?_eq_some hxb))
      (h.mem_block_of_mem_ops (mem_of_mem_head? hyf))).2
      (hblk ▸ before_middle (mem_of_getLast?_eq_some hxb) (mem_of_mem_head? hyf))
  have hbet : between b xb yf = G := hblk ▸ between_middle (hblk ▸ hnd) hxb hyf
  have hGb : G <+ b := hblk ▸ (infix_of_middle _ _ _ _ _).sublist
  have hgap : ∀ o ∈ G, ∀ r, Root m o r → m.ops r <:+: G := fun o ho r hr =>
    h.gap_contig hwf hblk hf ht rfl rfl ho hr
  obtain ⟨s₁, m₁, hup, hm₁, hs₁⟩ := computeMoveUpSet_spec (T := m.ops fromC) (h.upHyp hwf hGb hgap)
  have h₁ := h.of_sameForest hm₁
  obtain ⟨s₂, m₂, hdown, hm₂, hs₂⟩ := computeMoveDownSet_spec (T := m₁.ops toC)
    (h₁.downHyp hwf (fun x hx => h₁.mem_block_of_mem_ops hx) (hs₁.remain_sub.trans hGb)
      (h.residual_contig hwf hGb hgap hs₁.remain_sub hs₁.closed hm₁))
  have hs₂' : PhaseSpec (flip f.Uses) (m.ops toC) s₁.remain.reverse m s₂ :=
    hm₁.ops_eq toC ▸ hs₂.of_sameForest hm₁
  have heval : tryMergeInto true f ⟨b, m⟩ fromC toC =
      if s₂.remain.reverse ≠ [] then some (false, ⟨b, m₂⟩)
      else some (true, ⟨s₂.moved.foldl (fun bl op => moveAfter bl op yb)
          (s₁.moved.foldl (fun bl op => moveBefore bl op xf) b),
        spliceInto m₂ fromC toC (insertAll (m₂.ops fromC) (m₂.ops toC))⟩) := by
    simp only [tryMergeInto, hxf, hxb, hyf, hyb, hbef, hbet, if_true, Option.bind_eq_bind,
      Option.some_bind, hup, hdown]
    split <;> rfl
  by_cases he : s₂.remain = []
  · have hv := validSplit_of_phases hs₁ hs₂' (fun _ => Iff.rfl) (fun _ => mem_reverse)
      (fun o ho r hr c hc => (hgap o ho r hr).subset hc) (fun _ _ hr _ hc => h.mates hr hc)
      h.mem_ops he
    have hD : s₂.moved.reverse <+ G := by
      have := reverse_sublist.2 hs₂.moved_sub
      rw [reverse_reverse] at this
      exact this.trans hs₁.remain_sub
    refine Or.inl ⟨s₁.moved, s₂.moved.reverse, m₂,
      hv.congr (fun _ => Iff.rfl) (fun _ => mem_reverse.symm), hs₁.moved_sub, hD, hm₁.trans hm₂, ?_⟩
    rw [heval, if_neg (by simp [he]), insertAll_ops hwf h hf ht hne (hm₁.trans hm₂), hblk,
      foldl_moves (hblk ▸ hnd) hxf hyb hs₁.moved_sub hD (fun x hx => (hv.mem_iff x).1 hx) hv.disj]
  · refine Or.inr ⟨fun ⟨U, D, hv⟩ => he (remain_eq_nil_of_validSplit hs₁ hs₂' (fun _ => Iff.rfl)
      (fun _ => mem_reverse) h.mem_ops hv), m₂, hm₁.trans hm₂, ?_⟩
    rw [heval, if_pos (by simpa using he)]

/-- **`tryMergeInto` when `to` comes first**: the down phase towards `from`, then the up
    phase towards `to` on what is left. -/
theorem tryMergeInto_toFirst (hwf : WellFormed f) (h : Inv f keys ⟨b, m⟩) (hne : fromC ≠ toC)
    (hf : IsRoot m fromC) (ht : IsRoot m toC)
    (hblk : b = P ++ m.ops toC ++ G ++ m.ops fromC ++ S) :
    MergeOutcome f ⟨b, m⟩ fromC toC P (m.ops toC) G (m.ops fromC) S := by
  have hnd : b.Nodup := h.nodup hwf
  obtain ⟨xf, xb, hxf, hxb⟩ := exists_head_last h hf
  obtain ⟨yf, yb, hyf, hyb⟩ := exists_head_last h ht
  have hmem : ∀ {r x}, x ∈ m.ops r → x ∈ b := fun hx => h.mem_block_of_mem_ops hx
  have hbef : isBeforeInBlock b xb yf = false := by
    rw [Bool.eq_false_iff]
    intro e
    exact (hblk ▸ before_middle (mem_of_mem_head? hyf) (mem_of_getLast?_eq_some hxb)).not_swap
      hnd ((isBeforeInBlock_iff hnd (hmem (mem_of_getLast?_eq_some hxb))
        (hmem (mem_of_mem_head? hyf))).1 e)
  have hbef' : isBeforeInBlock b yb xf = true :=
    (isBeforeInBlock_iff hnd (hmem (mem_of_getLast?_eq_some hyb)) (hmem (mem_of_mem_head? hxf))).2
      (hblk ▸ before_middle (mem_of_getLast?_eq_some hyb) (mem_of_mem_head? hxf))
  have hbet : between b yb xf = G := hblk ▸ between_middle (hblk ▸ hnd) hyb hxf
  have hGb : G <+ b := hblk ▸ (infix_of_middle _ _ _ _ _).sublist
  have hgap : ∀ o ∈ G, ∀ r, Root m o r → m.ops r <:+: G := fun o ho r hr =>
    h.gap_contig hwf hblk ht hf rfl rfl ho hr
  obtain ⟨s₁, m₁, hdown, hm₁, hs₁⟩ := computeMoveDownSet_spec (T := m.ops fromC)
    (h.downHyp hwf (fun x hx => hmem hx) hGb hgap)
  have h₁ := h.of_sameForest hm₁
  have hR₁ : s₁.remain.reverse <+ G := by simpa using reverse_sublist.2 hs₁.remain_sub
  obtain ⟨s₂, m₂, hup, hm₂, hs₂⟩ := computeMoveUpSet_spec (T := m₁.ops toC)
    (h₁.upHyp hwf (hR₁.trans hGb) (h.residual_contig hwf hGb hgap hR₁
      (fun o ho r hr c hc => by simpa using hs₁.closed o (by simpa using ho) r hr c hc) hm₁))
  have hs₂' : PhaseSpec (flip (flip f.Uses)) (m.ops toC) s₁.remain.reverse m s₂ :=
    hm₁.ops_eq toC ▸ hs₂.of_sameForest hm₁
  have heval : tryMergeInto true f ⟨b, m⟩ fromC toC =
      if s₂.remain ≠ [] then some (false, ⟨b, m₂⟩)
      else some (true, ⟨s₁.moved.foldl (fun bl op => moveAfter bl op xb)
          (s₂.moved.foldl (fun bl op => moveBefore bl op yf) b),
        spliceInto m₂ fromC toC (insertAll (m₂.ops toC) (m₂.ops fromC))⟩) := by
    simp only [tryMergeInto, hxf, hxb, hyf, hyb, hbef, hbef', hbet, Bool.false_eq_true, if_false,
      if_true, Option.bind_eq_bind, Option.some_bind, hup, hdown]
    split <;> rfl
  have hL₁ : ∀ x, x ∈ G.reverse ↔ x ∈ G := fun _ => mem_reverse
  by_cases he : s₂.remain = []
  · have hv := (validSplit_of_phases hs₁ hs₂' hL₁ (fun _ => mem_reverse)
      (fun o ho r hr c hc => (hgap o ho r hr).subset hc) (fun _ _ hr _ hc => h.mates hr hc)
      h.mem_ops he).swap
    have hD : s₁.moved.reverse <+ G := by simpa using reverse_sublist.2 hs₁.moved_sub
    refine Or.inl ⟨s₂.moved, s₁.moved.reverse, m₂,
      hv.congr (fun _ => Iff.rfl) (fun _ => mem_reverse.symm), hs₂.moved_sub.trans hR₁, hD,
      hm₁.trans hm₂, ?_⟩
    rw [heval, if_neg (by simp [he]), insertAll_ops hwf h ht hf hne.symm (hm₁.trans hm₂), hblk,
      foldl_moves (hblk ▸ hnd) hyf hxb (hs₂.moved_sub.trans hR₁) hD
        (fun x hx => (hv.mem_iff x).1 hx) hv.disj]
  · refine Or.inr ⟨fun ⟨U, D, hv⟩ => he (remain_eq_nil_of_validSplit hs₁ hs₂' hL₁
      (fun _ => mem_reverse) h.mem_ops hv.swap), m₂, hm₁.trans hm₂, ?_⟩
    rw [heval, if_pos he]

end Branches

variable {st : ClusterState} {fromC toC : Nat}

/-- **What `tryMergeInto` does**, with assertions enabled, on two distinct root clusters
    of a state that satisfies the invariant: it does not abort, and does what
    `MergeOutcome` says. -/
theorem tryMergeInto_cases (hwf : WellFormed f) (h : Inv f keys st) (hne : fromC ≠ toC)
    (hf : IsRoot st.op2cluster fromC) (ht : IsRoot st.op2cluster toC) {P A G B S : List Nat}
    (hblk : st.block = P ++ A ++ G ++ B ++ S)
    (hAB : A = st.op2cluster.ops fromC ∧ B = st.op2cluster.ops toC ∨
      A = st.op2cluster.ops toC ∧ B = st.op2cluster.ops fromC) :
    MergeOutcome f st fromC toC P A G B S := by
  obtain ⟨b, m⟩ := st
  rcases hAB with ⟨rfl, rfl⟩ | ⟨rfl, rfl⟩
  · exact tryMergeInto_fromFirst hwf h hne hf ht hblk
  · exact tryMergeInto_toFirst hwf h hne hf ht hblk

/-- Two distinct root clusters split the block as `tryMergeInto_cases` needs. -/
theorem Inv.exists_mergeSplit (h : Inv f keys st) (hne : fromC ≠ toC)
    (hf : IsRoot st.op2cluster fromC) (ht : IsRoot st.op2cluster toC) :
    ∃ P A G B S, st.block = P ++ A ++ G ++ B ++ S ∧
      (A = st.op2cluster.ops fromC ∧ B = st.op2cluster.ops toC ∨
        A = st.op2cluster.ops toC ∧ B = st.op2cluster.ops fromC) := by
  obtain ⟨P, G, S, e | e⟩ := h.exists_split hf ht hne
  · exact ⟨P, _, G, _, S, e, Or.inl ⟨rfl, rfl⟩⟩
  · exact ⟨P, _, G, _, S, e, Or.inr ⟨rfl, rfl⟩⟩

/-- `tryMergeInto` returns, keeps the invariant, and when it gives up it leaves the block
    and the forest as they were. -/
theorem Inv.tryMergeInto (hwf : WellFormed f) (h : Inv f keys st) (hne : fromC ≠ toC)
    (hf : IsRoot st.op2cluster fromC) (ht : IsRoot st.op2cluster toC) :
    ∃ merged st', tryMergeInto true f st fromC toC = some (merged, st') ∧ Inv f keys st' ∧
      (merged = false → st'.block = st.block ∧ SameForest st.op2cluster st'.op2cluster) ∧
      (merged = true → ∀ k, IsRoot st'.op2cluster k ↔ IsRoot st.op2cluster k ∧ k ≠ fromC) := by
  obtain ⟨P, A, G, B, S, hblk, hAB⟩ := h.exists_mergeSplit hne hf ht
  obtain ⟨b, m⟩ := st
  rcases tryMergeInto_cases hwf h hne hf ht hblk hAB with
    ⟨U, D, m', hv, hU, hD, hm', he⟩ | ⟨-, m', hm', he⟩
  · refine ⟨true, _, he, ?_, by simp, fun _ k => (isRoot_spliceInto hne).trans
      (and_congr_left' hm'.isRoot_iff)⟩
    have hAB' : A = m'.ops fromC ∧ B = m'.ops toC ∨ A = m'.ops toC ∧ B = m'.ops fromC := by
      simpa only [hm'.ops_eq] using hAB
    exact (h.of_sameForest hm').splice hwf hne (hm'.isRoot_iff.2 hf) (hm'.isRoot_iff.2 ht) hblk
      hAB' (hv.of_sameForest hm') hU hD
  · exact ⟨false, _, he, h.of_sameForest hm', fun _ => ⟨rfl, hm'⟩, by simp⟩

/-- **`tryMerge` keeps the invariant**, and returns, on clusters named by keys. -/
theorem Inv.tryMerge (hwf : WellFormed f) (h : Inv f keys st) {l r : Option Nat}
    {res : Option Nat} {st' : ClusterState} (hrun : tryMerge true f st l r = some (res, st')) :
    Inv f keys st' := by
  unfold GraphClustering.tryMerge at hrun
  split at hrun
  · rename_i l r
    split at hrun
    · cases hrun; exact h
    rename_i hne
    split at hrun
    · rename_i cl cr hl hr
      split at hrun
      · cases hrun; exact h
      rename_i hroots
      simp only [Bool.or_eq_true, Option.isSome_iff_ne_none, not_or, not_not] at hroots
      obtain ⟨b₁, st₁, e₁, h₁, hfail, -⟩ :=
        h.tryMergeInto hwf hne ⟨cl, hl, hroots.1⟩ ⟨cr, hr, hroots.2⟩
      rw [e₁] at hrun
      cases b₁
      · obtain ⟨-, hm₁⟩ := hfail rfl
        obtain ⟨b₂, st₂, e₂, h₂, -, -⟩ := h₁.tryMergeInto hwf (Ne.symm hne)
          (hm₁.isRoot_iff.2 ⟨cr, hr, hroots.2⟩) (hm₁.isRoot_iff.2 ⟨cl, hl, hroots.1⟩)
        simp only [Option.bind_eq_bind, Option.some_bind, e₂] at hrun
        cases b₂ <;> cases hrun <;> exact h₂
      · cases hrun; exact h₁
    · cases hrun
  · cases hrun; exact h

end GraphClustering
