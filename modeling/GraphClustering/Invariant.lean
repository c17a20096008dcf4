/-
  The invariant of a clustering run, and its preservation by a merge.

  * `WellFormed f`: the entry block is in SSA order (handles distinct, every operand
    defined by an op of the block defined earlier);
  * `Inv f keys st`: the block is a permutation of the ops of `f` with the terminator
    last and in dependency order; `op2cluster` has the key set `keys`, every key has a
    root, the op list of a root holds exactly the keys rooted at it, contiguously in the
    block, and a non-root's op list is empty;
  * `Inv.init`: the state built by the constructor of `DeviceClusteringAlgoBaseHelper`;
  * `Inv.of_sameForest` and `Inv.splice`: path compression, and a merge that moves a
    `ValidSplit` of the gap out of the way, keep `Inv`.
-/
import GraphClustering.Merge

namespace GraphClustering

open List OpClusterMap

/-- The entry block of `f` is well formed: handles are distinct (nested ops included) and
    every operand of an op of the block, or of an op nested in it, that is defined by an
    op of the block is defined earlier. -/
structure WellFormed (f : Func) : Prop where
  nodup : f.NamesNodup
  dep : DepOrdered f f.names

/-- `DepOrdered` as a check: every operand of an op of `l` (or nested in one) that is
    defined by an op of `l` is defined earlier in `l`. -/
def depOrderedB (f : Func) (l : List Nat) : Bool :=
  l.all fun u => (f.opOf u).deepOperands.all fun v =>
    v.getDefiningOp.all fun d => d ∉ l || isBeforeInBlock l d u

theorem depOrdered_iff {f : Func} {l : List Nat} (hl : l.Nodup) :
    DepOrdered f l ↔ depOrderedB f l = true := by
  simp only [depOrderedB, all_eq_true, Bool.or_eq_true, decide_eq_true_eq]
  constructor
  · intro h u hu v hv
    cases hd : v.getDefiningOp with
    | none => rfl
    | some d =>
      by_cases hdl : d ∈ l
      · simpa [hdl] using (isBeforeInBlock_iff hl hdl hu).2 (h u d ⟨v, hv, hd⟩ hu hdl)
      · simp [hdl]
  · rintro h u d ⟨v, hv, hd⟩ hu hdl
    have := h u hu v hv
    rw [hd] at this
    simpa [hdl, isBeforeInBlock_iff hl hdl hu] using this

instance (f : Func) : Decidable f.NamesNodup := inferInstanceAs (Decidable (List.Nodup _))

instance (f : Func) : Decidable (WellFormed f) :=
  decidable_of_iff (f.NamesNodup ∧ depOrderedB f f.names = true)
    ⟨fun ⟨h₁, h₂⟩ => ⟨h₁, (depOrdered_iff (f.names_nodup h₁)).2 h₂⟩,
      fun ⟨h₁, h₂⟩ => ⟨h₁, (depOrdered_iff (f.names_nodup h₁)).1 h₂⟩⟩

/-- The invariant of a clustering run on `f` whose `op2cluster` has the key set `keys`. -/
structure Inv (f : Func) (keys : List Nat) (st : ClusterState) : Prop where
  perm : st.block ~ f.names
  last : st.block.getLast? = some f.terminator.name
  dep : DepOrdered f st.block
  keys_eq : st.op2cluster.keys = keys
  keys_sub : ∀ k ∈ keys, k ∈ f.names ∧ k ≠ f.terminator.name
  rooted : ∀ k ∈ keys, ∃ r, Root st.op2cluster k r
  mem_ops : ∀ k r, Root st.op2cluster k r → k ∈ st.op2cluster.ops r
  root_of_mem : ∀ r x, IsRoot st.op2cluster r → x ∈ st.op2cluster.ops r →
    Root st.op2cluster x r
  contig : ∀ r, IsRoot st.op2cluster r → st.op2cluster.ops r <:+: st.block
  nonroot : ∀ k, ¬IsRoot st.op2cluster k → st.op2cluster.ops k = []

/-- The state before any merge: the block of `f` and the singleton clusters. -/
def initState (isConstantLike : Operation → Bool) (f : Func) (attrName : String) :
    ClusterState :=
  ⟨f.names, initClusters isConstantLike f attrName⟩

variable {f : Func} {keys : List Nat} {st : ClusterState}

/-! ## Consequences of the invariant -/

namespace Inv

variable (h : Inv f keys st)
include h

theorem nodup (hwf : WellFormed f) : st.block.Nodup :=
  h.perm.nodup_iff.2 (f.names_nodup hwf.nodup)

theorem mates {o r : Nat} (hr : Root st.op2cluster o r) {c : Nat} (hc : c ∈ st.op2cluster.ops r) :
    Root st.op2cluster c r :=
  h.root_of_mem r c (let ⟨_, h⟩ := hr; h.isRoot) hc

theorem not_mem_ops_of_ne {r r' x : Nat} (hr : IsRoot st.op2cluster r)
    (hr' : IsRoot st.op2cluster r') (hne : r ≠ r') (hx : x ∈ st.op2cluster.ops r) :
    x ∉ st.op2cluster.ops r' :=
  fun hx' => hne ((h.root_of_mem r x hr hx).unique (h.root_of_mem r' x hr' hx'))

theorem ops_ne_nil {r : Nat} (hr : IsRoot st.op2cluster r) : st.op2cluster.ops r ≠ [] :=
  ne_nil_of_mem (h.mem_ops r r hr.root)

theorem mem_keys_of_mem_ops {r x : Nat} (hx : x ∈ st.op2cluster.ops r) : x ∈ keys := by
  by_cases hr : IsRoot st.op2cluster r
  · obtain ⟨_, hn⟩ := h.root_of_mem r x hr hx
    exact h.keys_eq ▸ hn.mem_keys
  · simp [h.nonroot r hr] at hx

theorem mem_block_of_mem_ops {r x : Nat} (hx : x ∈ st.op2cluster.ops r) : x ∈ st.block :=
  h.perm.mem_iff.2 (h.keys_sub x (h.mem_keys_of_mem_ops hx)).1

/-- Two distinct root clusters sit in the block one after the other. -/
theorem exists_split {r r' : Nat} (hr : IsRoot st.op2cluster r) (hr' : IsRoot st.op2cluster r')
    (hne : r ≠ r') :
    ∃ P G S, st.block = P ++ st.op2cluster.ops r ++ G ++ st.op2cluster.ops r' ++ S ∨
      st.block = P ++ st.op2cluster.ops r' ++ G ++ st.op2cluster.ops r ++ S := by
  rcases infix_split (h.contig r hr) (h.contig r' hr') (h.ops_ne_nil hr)
      fun x hx => h.not_mem_ops_of_ne hr' hr (Ne.symm hne) hx with ⟨P, G, S, e⟩ | ⟨P, G, S, e⟩
  · exact ⟨P, G, S, Or.inl e⟩
  · exact ⟨P, G, S, Or.inr e⟩

/-- The root cluster of an op in the gap between two root clusters lies in the gap. -/
theorem gap_contig (hwf : WellFormed f) {P A G B S : List Nat} {a b : Nat}
    (hblk : st.block = P ++ A ++ G ++ B ++ S) (ha : IsRoot st.op2cluster a)
    (hb : IsRoot st.op2cluster b) (hA : A = st.op2cluster.ops a) (hB : B = st.op2cluster.ops b)
    {o r : Nat} (ho : o ∈ G) (hr : Root st.op2cluster o r) : st.op2cluster.ops r <:+: G := by
  have hnd := h.nodup hwf
  rw [hblk] at hnd
  have hrr : IsRoot st.op2cluster r := let ⟨_, h⟩ := hr; h.isRoot
  have hor := h.mem_ops o r hr
  have hoG : o ∉ P ++ A ∧ o ∉ B ++ S := not_mem_of_nodup_middle (by simpa using hnd) ho
  have hne : ∀ {c}, IsRoot st.op2cluster c → o ∉ st.op2cluster.ops c →
      ∀ x ∈ st.op2cluster.ops r, x ∉ st.op2cluster.ops c := fun hc hoc =>
    fun x hx => h.not_mem_ops_of_ne hrr hc (fun e => hoc (e ▸ hor)) hx
  have hCa := hne ha (hA ▸ fun h => hoG.1 (mem_append_right _ h))
  have hCb := hne hb (hB ▸ fun h => hoG.2 (mem_append_left _ h))
  have hC := h.contig r hrr
  rw [hblk, show P ++ A ++ G ++ B ++ S = P ++ (A ++ (G ++ B ++ S)) by simp] at hC
  rcases infix_of_disjoint_middle hC (hA ▸ h.ops_ne_nil ha) (hA ▸ hCa) with hP | hC
  · exact absurd (mem_append_left _ (hP.subset hor)) hoG.1
  rw [append_assoc] at hC
  rcases infix_of_disjoint_middle hC (hB ▸ h.ops_ne_nil hb) (hB ▸ hCb) with hG | hS
  · exact hG
  · exact absurd (mem_append_right _ (hS.subset hor)) hoG.2

end Inv

/-! ## The initial state -/

theorem initClusters_entry {isConstantLike : Operation → Bool} {attrName : String}
    {k : Nat} {c : ActiveDeviceCluster} (h : (k, c) ∈ initClusters isConstantLike f attrName) :
    c = ⟨[k], none⟩ ∧ ∃ op ∈ f.body, op.name = k := by
  simp only [initClusters, mem_filterMap] at h
  obtain ⟨op, hop, he⟩ := h
  split at he
  · cases he
  split at he <;> cases he
  exact ⟨rfl, op, hop, rfl⟩

theorem find_eq_some_mem {m : OpClusterMap} {k : Nat} {c : ActiveDeviceCluster}
    (h : m.find k = some c) : (k, c) ∈ m := by
  induction m with
  | nil => cases h
  | cons p m ih =>
    obtain ⟨k₀, c₀⟩ := p
    rw [find_cons] at h
    split at h
    · cases h; subst k₀; exact mem_cons_self _ _
    · exact mem_cons_of_mem _ (ih h)

theorem initClusters_keys_nodup (hwf : WellFormed f) (isConstantLike : Operation → Bool)
    (attrName : String) : (initClusters isConstantLike f attrName).keys.Nodup := by
  have hsub : ∀ g : Operation → Option (Nat × ActiveDeviceCluster),
      (∀ op p, g op = some p → p.1 = op.name) →
      ∀ l : List Operation, (l.filterMap g).map Prod.fst <+ l.map Operation.name := by
    intro g hg l
    induction l with
    | nil => exact Sublist.slnil
    | cons op l ih =>
      rw [filterMap_cons]
      cases he : g op with
      | none => exact ih.cons _
      | some p => rw [map_cons, map_cons, hg op p he]; exact ih.cons₂ _
  refine Nodup.sublist (hsub _ ?_ f.body) ?_
  · intro op p he
    split at he
    · cases he
    split at he <;> cases he
    rfl
  · have := f.names_nodup hwf.nodup
    simp only [Func.names, Func.ops, map_append] at this
    exact (nodup_append.1 this).1

theorem Inv.init (hwf : WellFormed f) (isConstantLike : Operation → Bool) (attrName : String) :
    Inv f (initClusters isConstantLike f attrName).keys (initState isConstantLike f attrName) := by
  set m := initClusters isConstantLike f attrName
  have hfind : ∀ k, k ∈ m.keys → m.find k = some ⟨[k], none⟩ := fun k hk => by
    obtain ⟨c, hc⟩ := Option.isSome_iff_exists.1 (find_isSome_iff.2 hk)
    rw [hc, (initClusters_entry (find_eq_some_mem hc)).1]
  have hroot : ∀ k, k ∈ m.keys → IsRoot m k := fun k hk => ⟨_, hfind k hk, rfl⟩
  have hops : ∀ k, m.ops k = if k ∈ m.keys then [k] else [] := fun k => by
    split
    · simp [OpClusterMap.ops, hfind k ‹_›]
    · have : m.find k = none := by simpa [← find_isSome_iff] using ‹k ∉ m.keys›
      simp [OpClusterMap.ops, this]
  have hkey : ∀ k r, Root m k r → r = k ∧ k ∈ m.keys := fun k r ⟨_, hn⟩ =>
    ⟨Root.eq_of_isRoot ⟨_, hn⟩ (hroot k hn.mem_keys), hn.mem_keys⟩
  have hbody : ∀ k ∈ m.keys, k ∈ f.names ∧ k ≠ f.terminator.name := fun k hk => by
    obtain ⟨⟨k, c⟩, hc, rfl⟩ := mem_map.1 hk
    obtain ⟨-, op, hop, rfl⟩ := initClusters_entry hc
    have hnd := f.names_nodup hwf.nodup
    simp only [Func.names, Func.ops, map_append, map_cons, map_nil] at hnd ⊢
    exact ⟨mem_append_left _ (mem_map_of_mem _ hop),
      fun e => disjoint_of_nodup_append hnd (mem_map_of_mem _ hop) (by simp [e])⟩
  refine ⟨Perm.refl _, by simp [initState, Func.names, Func.ops], hwf.dep, rfl, hbody,
    fun k hk => ⟨k, (hroot k hk).root⟩, ?_, ?_, ?_, ?_⟩
  · intro k r hr
    obtain ⟨rfl, hk⟩ := hkey k r hr
    simp [initState, hops, hk]
  · intro r x hr hx
    simp only [initState, hops] at hx
    split at hx
    · simp at hx; subst x; exact hr.root
    · simp at hx
  · intro r hr
    have hk : r ∈ m.keys := let ⟨_, hc, _⟩ := hr; mem_keys_of_find hc
    simp only [initState, hops, hk, if_true]
    obtain ⟨s, t, e⟩ := append_of_mem (hbody r hk).1
    exact ⟨s, t, by simp [initState, e]⟩
  · intro k hk
    simp only [initState, hops]
    exact if_neg fun h => hk (hroot k h)

/-! ## Preservation -/

theorem Inv.of_sameForest {b : List Nat} {m m' : OpClusterMap} (h : Inv f keys ⟨b, m⟩)
    (hm : SameForest m m') : Inv f keys ⟨b, m'⟩ where
  perm := h.perm
  last := h.last
  dep := h.dep
  keys_eq := hm.keys_eq.trans h.keys_eq
  keys_sub := h.keys_sub
  rooted k hk := let ⟨r, hr⟩ := h.rooted k hk; ⟨r, (hm.root_iff k r).2 hr⟩
  mem_ops k r hr := (hm.ops_eq r).symm ▸ h.mem_ops k r ((hm.root_iff k r).1 hr)
  root_of_mem r x hr hx := (hm.root_iff x r).2
    (h.root_of_mem r x (hm.isRoot_iff.1 hr) (hm.ops_eq r ▸ hx))
  contig r hr := (hm.ops_eq r).symm ▸ h.contig r (hm.isRoot_iff.1 hr)
  nonroot k hk := (hm.ops_eq k).symm ▸ h.nonroot k (mt hm.isRoot_iff.2 hk)

section Splice

variable {b : List Nat} {m : OpClusterMap} {fromC toC : Nat} {P A G B S U D : List Nat}

theorem mem_append_ops (hAB : A = m.ops fromC ∧ B = m.ops toC ∨ A = m.ops toC ∧ B = m.ops fromC)
    {x : Nat} : x ∈ A ++ B ↔ x ∈ m.ops fromC ∨ x ∈ m.ops toC := by
  rcases hAB with ⟨rfl, rfl⟩ | ⟨rfl, rfl⟩
  · simp
  · simp [or_comm]

/-- The last element of a list stays last when what stands before a non-empty middle part
    that does not hold it changes, and the part after it grows at the front. -/
theorem getLast?_of_middle {α : Type} {X Y M S T : List α} {t : α} (hM : M ≠ []) (ht : t ∉ M)
    (h : (X ++ M ++ S).getLast? = some t) : (Y ++ M ++ (T ++ S)).getLast? = some t := by
  obtain ⟨s, hs⟩ : ∃ s, S.getLast? = some s := by
    cases hS : S.getLast? with
    | some s => exact ⟨s, rfl⟩
    | none =>
      rw [getLast?_eq_none_iff] at hS
      subst hS
      simp only [append_nil, getLast?_append, getLast?_eq_getLast M hM, Option.or_some] at h
      exact absurd (Option.some.inj h ▸ getLast_mem hM) ht
  simp only [getLast?_append, hs, Option.or_some] at h ⊢
  exact h

theorem perm_moved (hnd : (P ++ A ++ G ++ B ++ S).Nodup) (hU : U <+ G) (hD : D <+ G)
    (hv : ∀ x, x ∈ G ↔ x ∈ U ∨ x ∈ D) (hUD : ∀ x ∈ U, x ∉ D) :
    P ++ U ++ A ++ B ++ D ++ S ~ P ++ A ++ G ++ B ++ S := by
  have hGnd : G.Nodup := hnd.sublist (infix_of_middle P A G B S).sublist
  have hG : U ++ D ~ G := (perm_ext_iff_of_nodup
    (nodup_append.2 ⟨hU.nodup hGnd, hD.nodup hGnd, fun x hx hx' => hUD x hx hx'⟩) hGnd).2
    fun x => by rw [mem_append, hv]
  exact (perm_iff_count.2 fun x => by simp only [count_append]; omega :
      P ++ U ++ A ++ B ++ D ++ S ~ P ++ A ++ (U ++ D) ++ B ++ S).trans
    (((hG.append_left _).append_right _).append_right _)

/-- **A merge keeps the invariant.** Moving a `ValidSplit` of the gap out of the way and
    splicing the op lists of the two roots onto `toC` keeps `Inv`. -/
theorem Inv.splice (hwf : WellFormed f) (h : Inv f keys ⟨b, m⟩) (hne : fromC ≠ toC)
    (hf : IsRoot m fromC) (ht : IsRoot m toC) (hblk : b = P ++ A ++ G ++ B ++ S)
    (hAB : A = m.ops fromC ∧ B = m.ops toC ∨ A = m.ops toC ∧ B = m.ops fromC)
    (hv : ValidSplit f.Uses m A B G U D) (hU : U <+ G) (hD : D <+ G) :
    Inv f keys ⟨P ++ U ++ A ++ B ++ D ++ S, spliceInto m fromC toC (A ++ B)⟩ := by
  subst hblk
  have hnd := h.nodup hwf
  have hperm := perm_moved hnd hU hD hv.mem_iff hv.disj
  have htk : toC ∈ m.keys := let ⟨_, hc, _⟩ := ht; mem_keys_of_find hc
  have hops : ∀ k, (spliceInto m fromC toC (A ++ B)).ops k =
      if k = fromC then [] else if k = toC then A ++ B else m.ops k := fun _ =>
    ops_spliceInto hne htk
  have hroot : ∀ k r, Root (spliceInto m fromC toC (A ++ B)) k r ↔
      (Root m k r ∧ r ≠ fromC) ∨ (Root m k fromC ∧ r = toC) := fun _ _ =>
    root_spliceInto hne hf ht
  have hBne : B ≠ [] := by rcases hAB with ⟨-, rfl⟩ | ⟨-, rfl⟩ <;> exact h.ops_ne_nil ‹_›
  have hAne : A ≠ [] := by rcases hAB with ⟨rfl, -⟩ | ⟨rfl, -⟩ <;> exact h.ops_ne_nil ‹_›
  have hAB' : ∀ x, x ∈ A ++ B ↔ x ∈ m.ops fromC ∨ x ∈ m.ops toC := fun x => mem_append_ops hAB
  refine ⟨hperm.trans h.perm, ?_, ?_, by simpa [spliceInto] using h.keys_eq, h.keys_sub,
    ?_, ?_, ?_, ?_, ?_⟩
  · -- the terminator stays last: it is no key, so not in `B`
    have hBk : ∀ x ∈ B, x ∈ keys := by
      rcases hAB with ⟨-, rfl⟩ | ⟨-, rfl⟩ <;> exact fun x hx => h.mem_keys_of_mem_ops hx
    simpa only [append_assoc] using getLast?_of_middle (Y := P ++ U ++ A) (T := D) hBne
      (fun hx => (h.keys_sub _ (hBk _ hx)).2 rfl) h.last
  · intro u d hud hu hd
    exact (h.dep u d hud (hperm.subset hu) (hperm.subset hd)).of_moved hnd hU hD
      (fun x hx => (hv.mem_iff x).1 hx)
      (fun ⟨hdA, huU⟩ => (hv.up u huU d hud).1 hdA)
      (fun ⟨hdD, huU⟩ => (hv.up u huU d hud).2 hdD)
      (fun ⟨hdD, huB⟩ => (hv.down d hdD u hud).1 huB)
  · intro k hk
    obtain ⟨r, hr⟩ := h.rooted k hk
    by_cases hrf : r = fromC
    · exact ⟨toC, (hroot k toC).2 (Or.inr ⟨hrf ▸ hr, rfl⟩)⟩
    · exact ⟨r, (hroot k r).2 (Or.inl ⟨hr, hrf⟩)⟩
  · intro k r hr
    rw [hops]
    rcases (hroot k r).1 hr with ⟨hkr, hrf⟩ | ⟨hkf, hrt⟩
    · rw [if_neg hrf]
      split
      · subst r; exact (hAB' k).2 (Or.inr (h.mem_ops k toC hkr))
      · exact h.mem_ops k r hkr
    · subst r
      rw [if_neg hne.symm, if_pos rfl]
      exact (hAB' k).2 (Or.inl (h.mem_ops k fromC hkf))
  · intro r x hr hx
    obtain ⟨hr, hrf⟩ := (isRoot_spliceInto hne).1 hr
    rw [hops, if_neg hrf] at hx
    split at hx
    · subst r
      rcases (hAB' x).1 hx with hx | hx
      · exact (hroot x toC).2 (Or.inr ⟨h.root_of_mem fromC x hf hx, rfl⟩)
      · exact (hroot x toC).2 (Or.inl ⟨h.root_of_mem toC x ht hx, hne.symm⟩)
    · exact (hroot x r).2 (Or.inl ⟨h.root_of_mem r x hr hx, hrf⟩)
  · intro r hr
    obtain ⟨hr, hrf⟩ := (isRoot_spliceInto hne).1 hr
    rw [hops, if_neg hrf]
    split
    · exact ⟨P ++ U, D ++ S, by simp⟩
    rename_i hrt
    -- another root cluster: before the gap, after it, or inside it on one side
    have hC := h.contig r hr
    have hCA : ∀ x ∈ m.ops r, x ∉ A ++ B := fun x hx hx' =>
      ((hAB' x).1 hx').elim (h.not_mem_ops_of_ne hr hf hrf hx) (h.not_mem_ops_of_ne hr ht hrt hx)
    simp only [show P ++ A ++ G ++ B ++ S = P ++ (A ++ (G ++ (B ++ S))) by simp] at hC
    rcases infix_of_disjoint_middle hC hAne fun x hx hx' => hCA x hx (mem_append_left _ hx')
      with hP | hC
    · exact hP.trans ⟨[], U ++ A ++ B ++ D ++ S, by simp⟩
    rcases infix_of_disjoint_middle hC hBne fun x hx hx' => hCA x hx (mem_append_right _ hx')
      with hG | hS
    · have hGnd : G.Nodup := hnd.sublist (infix_of_middle P A G B S).sublist
      obtain ⟨o, ho⟩ := exists_mem_of_ne_nil _ (h.ops_ne_nil hr)
      rcases hv.cluster o (hG.subset ho) r (h.root_of_mem r o hr ho) with hUr | hDr
      · exact (infix_of_sublist_of_subset hG hU hUr hGnd).trans ⟨P, A ++ B ++ D ++ S, by simp⟩
      · exact (infix_of_sublist_of_subset hG hD hDr hGnd).trans ⟨P ++ U ++ A ++ B, S, by simp⟩
    · exact hS.trans ⟨P ++ U ++ A ++ B ++ D, [], by simp⟩
  · intro k hk
    rw [hops]
    split
    · rfl
    · rename_i hkf
      have hk' : ¬IsRoot m k := fun hk' => hk ((isRoot_spliceInto hne).2 ⟨hk', hkf⟩)
      rw [if_neg (fun (e : k = toC) => hk' (e ▸ ht))]
      exact h.nonroot k hk'

end Splice

end GraphClustering
