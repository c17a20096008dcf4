/-
  `computeMoveUpSet` and `computeMoveDownSet`: the two phases that split the ops between
  two clusters into those that move and the residual.

  * both are the loop `moveLoop` with their own test (`anyDefIn` or `anyUseIn`), direction
    and order of the ops of a rejected cluster; the down phase puts its residual back in
    forward order;
  * `rejectCluster` is the loop over the ops of a rejected op's cluster, with
    `assertions` telling whether the calls written inside `assert(...)` run;
  * `moveLoop_spec`: with assertions enabled, on a list whose clusters are contiguous and
    whose dependencies point backwards, the loop returns a residual that is the least
    set closed under blocking and under whole clusters, and moves everything else
    (`PhaseSpec`).
-/
import GraphClustering.Cluster

namespace GraphClustering

open List OpClusterMap

/-! ## The loops -/

/-- `SetVector::insert` on an `OpList`: append `x` unless it is already there. -/
def insertOp (l : List Nat) (x : Nat) : List Nat := if x ∈ l then l else l ++ [x]

/-- The two `OpList`s a phase builds: `remain`, what is left of `src`, and `moved`
    (`moveUp` or `moveDown`). -/
structure MoveSets where
  remain : List Nat
  moved : List Nat
  deriving DecidableEq, Repr

/-- The loop over the ops of the cluster of a rejected op. With assertions enabled each op
    must be in `vec` and not yet in `remain` (else the program aborts: `none`) and is
    inserted into `remain`; without them (`NDEBUG`) nothing written inside `assert(...)`
    runs. In both modes the op is dropped from `moved`. -/
def rejectCluster (assertions : Bool) (vec : List Nat) : List Nat → MoveSets → Option MoveSets
  | [], s => some s
  | c :: cs, s =>
    if assertions then
      if c ∈ vec ∧ c ∉ s.remain then
        rejectCluster assertions vec cs ⟨insertOp s.remain c, s.moved.erase c⟩
      else none
    else rejectCluster assertions vec cs ⟨s.remain, s.moved.erase c⟩

/-- The loop of `computeMoveUpSet` and `computeMoveDownSet` over `ops`: an op already in
    `remain` is skipped; an op blocked by `target` or by `remain` is rejected, alone if it
    is not in `op2cluster`, else with every op of its root cluster (in `clusterOrder`);
    any other op is moved. `none` if an assertion fails or `getRoot` does not return. -/
def moveLoop (assertions : Bool) (blocked : List Nat → Nat → Bool)
    (clusterOrder : List Nat → List Nat) (target vec : List Nat) :
    List Nat → MoveSets × OpClusterMap → Option (MoveSets × OpClusterMap)
  | [], st => some st
  | op :: ops, (s, m) =>
    if op ∈ s.remain then moveLoop assertions blocked clusterOrder target vec ops (s, m)
    else if blocked target op || blocked s.remain op then
      match m.find op with
      | none =>
        moveLoop assertions blocked clusterOrder target vec ops (⟨insertOp s.remain op, s.moved⟩, m)
      | some _ =>
        match getRoot m m.length op with
        | none => none
        | some (r, m') =>
          match rejectCluster assertions vec (clusterOrder (m'.ops r)) s with
          | none => none
          | some s' => moveLoop assertions blocked clusterOrder target vec ops (s', m')
    else
      moveLoop assertions blocked clusterOrder target vec ops (⟨s.remain, insertOp s.moved op⟩, m)

/-- `ActiveDeviceCluster::computeMoveUpSet(target, src, moveUp, op2cluster)` with an empty
    `moveUp`: returns `moveUp`, the new `src` and `op2cluster` after the path compressions
    of `getRoot`; `none` if the program aborts. -/
def computeMoveUpSet (assertions : Bool) (f : Func) (target src : List Nat)
    (m : OpClusterMap) : Option (List Nat × List Nat × OpClusterMap) :=
  (moveLoop assertions (fun S op => (f.opOf op).anyDefIn S) id target src src (⟨[], []⟩, m)).map
    fun (s, m) => (s.moved, s.remain, m)

/-- `ActiveDeviceCluster::computeMoveDownSet`: the loop over `src` in reverse, with
    `anyUseIn` and the clusters in reverse; the new `src` is then rebuilt from the
    reverse of the residual. -/
def computeMoveDownSet (assertions : Bool) (f : Func) (target src : List Nat)
    (m : OpClusterMap) : Option (List Nat × List Nat × OpClusterMap) :=
  (moveLoop assertions (fun S op => anyUseIn f op S) reverse target src src.reverse
      (⟨[], []⟩, m)).map
    fun (s, m) => (s.moved, s.remain.reverse.foldl insertOp [], m)

theorem insertOp_of_not_mem {l : List Nat} {x : Nat} (h : x ∉ l) : insertOp l x = l ++ [x] := by
  simp [insertOp, h]

theorem foldl_insertOp_of_nodup {l acc : List Nat} (h : (acc ++ l).Nodup) :
    l.foldl insertOp acc = acc ++ l := by
  induction l generalizing acc with
  | nil => simp
  | cons x l ih =>
    have hx : x ∉ acc := fun hx => (nodup_append.1 h).2.2 hx (mem_cons_self x l)
    rw [foldl_cons, insertOp_of_not_mem hx, ih (by simpa using h)]
    simp

theorem rejectCluster_true {vec cs : List Nat} {s : MoveSets} (hvec : cs ⊆ vec)
    (hnd : cs.Nodup) (hdisj : ∀ c ∈ cs, c ∉ s.remain) (hmoved : s.moved.Nodup) :
    rejectCluster true vec cs s = some ⟨s.remain ++ cs, s.moved.filter (· ∉ cs)⟩ := by
  induction cs generalizing s with
  | nil => simp [rejectCluster]
  | cons c cs ih =>
    rw [nodup_cons] at hnd
    have hc : c ∉ s.remain := hdisj c (mem_cons_self c cs)
    rw [rejectCluster, if_pos rfl, if_pos ⟨hvec (mem_cons_self c cs), hc⟩,
      insertOp_of_not_mem hc, ih (fun x hx => hvec (mem_cons_of_mem c hx)) hnd.2 ?_
        (hmoved.erase c), filter_not_mem_cons hmoved]
    · simp
    · intro x hx hx'
      rcases mem_append.1 hx' with h | h
      · exact hdisj x (mem_cons_of_mem c hx) h
      · exact hnd.1 (by simp at h; exact h ▸ hx)

/-! ## The phase with assertions enabled -/

section Spec

variable {blocked : List Nat → Nat → Bool} {clusterOrder : List Nat → List Nat}
  {R : Nat → Nat → Prop} {T L vec : List Nat} {m₀ : OpClusterMap}

/-- What the loop needs of its arguments: `blocked S o` says that `o` is `R`-related to an
    op of `S`; `R` points backwards in `L`; the root cluster of an op of `L` lies
    contiguously in `L` in `clusterOrder`; `m₀` is a forest whose roots hold exactly the
    ops rooted at them. -/
structure LoopHyp (blocked : List Nat → Nat → Bool) (clusterOrder : List Nat → List Nat)
    (R : Nat → Nat → Prop) (T L vec : List Nat) (m₀ : OpClusterMap) : Prop where
  blocked_iff : ∀ S o, S ⊆ T ++ L → (blocked S o = true ↔ ∃ x ∈ S, R o x)
  mem_order : ∀ C x, x ∈ clusterOrder C ↔ x ∈ C
  nodup : L.Nodup
  mem_vec : ∀ x, x ∈ vec ↔ x ∈ L
  dep : ∀ o x, R o x → o ∈ L → x ∈ L → Before L x o
  contig : ∀ o ∈ L, ∀ r, Root m₀ o r → clusterOrder (m₀.ops r) <:+: L
  mem_ops : ∀ o r, Root m₀ o r → o ∈ m₀.ops r
  root_of_mem : ∀ r x, IsRoot m₀ r → x ∈ m₀.ops r → Root m₀ x r
  rooted : ∀ k ∈ m₀.keys, ∃ r, Root m₀ k r

/-- `D` is closed under what forces an op of `L` into the residual: being `R`-related to
    the target or to `D`, and sharing a root cluster with an op of `D`. -/
def ResidualClosed (R : Nat → Nat → Prop) (T L : List Nat) (m₀ : OpClusterMap)
    (D : Nat → Prop) : Prop :=
  (∀ o ∈ L, (∃ x, (x ∈ T ∨ D x) ∧ R o x) → D o) ∧ ∀ o r, D o → Root m₀ o r → ∀ c ∈ m₀.ops r, D c

/-- The result of a phase on `L`: `moved` and `remain` split `L`, each in the order of
    `L`; no moved op is related to the target or to the residual; the residual holds whole
    root clusters and is the least set closed as in `ResidualClosed`. -/
structure PhaseSpec (R : Nat → Nat → Prop) (T L : List Nat) (m₀ : OpClusterMap)
    (s : MoveSets) : Prop where
  moved_sub : s.moved <+ L
  remain_sub : s.remain <+ L
  mem : ∀ x ∈ L, x ∈ s.moved ∨ x ∈ s.remain
  disj : ∀ x ∈ s.moved, x ∉ s.remain
  free : ∀ o ∈ s.moved, ∀ x, (x ∈ T ∨ x ∈ s.remain) → ¬R o x
  closed : ∀ o ∈ s.remain, ∀ r, Root m₀ o r → ∀ c ∈ m₀.ops r, c ∈ s.remain
  least : ∀ D, ResidualClosed R T L m₀ D → ∀ x ∈ s.remain, D x

/-- A phase's result only depends on the forest, not on how compressed its paths are. -/
theorem PhaseSpec.of_sameForest {s : MoveSets} {m₁ : OpClusterMap}
    (h : PhaseSpec R T L m₁ s) (hm : SameForest m₀ m₁) : PhaseSpec R T L m₀ s where
  __ := h
  closed o ho r hr c hc := h.closed o ho r ((hm.root_iff o r).2 hr) c (by rwa [hm.ops_eq])
  least D hD := h.least D ⟨hD.1, fun o r ho hr c hc =>
    hD.2 o r ho ((hm.root_iff o r).1 hr) c (by rwa [← hm.ops_eq])⟩

/-- The invariant of `moveLoop` once it has run over `pre`, where `L = pre ++ rest`: the
    residual may already hold ops of `rest` (mates of a rejected op), but only ahead of
    every op of `rest` still to be decided. -/
structure LoopInv (R : Nat → Nat → Prop) (T L : List Nat) (m₀ : OpClusterMap)
    (pre rest : List Nat) (s : MoveSets) (m : OpClusterMap) : Prop where
  same : SameForest m₀ m
  moved_sub : s.moved <+ pre
  remain_sub : s.remain <+ L
  remain_before : ∀ x ∈ s.remain, ∀ y ∈ rest, y ∉ s.remain → Before L x y
  mem : ∀ x ∈ pre, x ∈ s.moved ∨ x ∈ s.remain
  disj : ∀ x ∈ s.moved, x ∉ s.remain
  free : ∀ o ∈ s.moved, ∀ x, (x ∈ T ∨ x ∈ s.remain) → ¬R o x
  closed : ∀ o ∈ s.remain, ∀ r, Root m₀ o r → ∀ c ∈ m₀.ops r, c ∈ s.remain
  least : ∀ D, ResidualClosed R T L m₀ D → ∀ x ∈ s.remain, D x

variable {pre rest : List Nat} {op : Nat} {s : MoveSets} {m : OpClusterMap}

theorem LoopInv.start (h : SameForest m₀ m) : LoopInv R T L m₀ [] L ⟨[], []⟩ m :=
  ⟨h, Sublist.slnil, nil_sublist _, by simp, by simp, by simp, by simp, by simp, by simp⟩

theorem LoopInv.skip (h : LoopInv R T L m₀ pre (op :: rest) s m) (hop : op ∈ s.remain) :
    LoopInv R T L m₀ (pre ++ [op]) rest s m where
  __ := h
  moved_sub := h.moved_sub.trans (sublist_append_left _ _)
  remain_before x hx y hy := h.remain_before x hx y (mem_cons_of_mem op hy)
  mem x hx := by
    rcases mem_append.1 hx with hx | hx
    · exact h.mem x hx
    · exact Or.inr (by simp at hx; exact hx ▸ hop)

theorem not_mem_pre (hL : L = pre ++ op :: rest) (hnd : L.Nodup) : op ∉ pre := by
  subst hL; exact fun h => (nodup_append.1 hnd).2.2 h (mem_cons_self op rest)

theorem before_of_pre (hL : L = pre ++ op :: rest) {x : Nat} (hx : x ∈ pre) : Before L x op := by
  subst hL; exact before_append hx (mem_cons_self op rest)

theorem before_of_rest (hL : L = pre ++ op :: rest) {y : Nat} (hy : y ∈ rest) : Before L op y := by
  subst hL; exact (before_append (mem_singleton_self op) hy).mono (by simp)

theorem LoopInv.reject_single (hyp : LoopHyp blocked clusterOrder R T L vec m₀)
    (hL : L = pre ++ op :: rest) (h : LoopInv R T L m₀ pre (op :: rest) s m)
    (hop : op ∉ s.remain) (hb : ∃ x, (x ∈ T ∨ x ∈ s.remain) ∧ R op x) (hk : op ∉ m₀.keys) :
    LoopInv R T L m₀ (pre ++ [op]) rest ⟨insertOp s.remain op, s.moved⟩ m := by
  have hopL : op ∈ L := by simp [hL]
  have hpre := not_mem_pre hL hyp.nodup
  rw [insertOp_of_not_mem hop]
  refine ⟨h.same, h.moved_sub.trans (sublist_append_left _ _), ?_, ?_, ?_, ?_, ?_, ?_, ?_⟩
  · exact sublist_append_infix h.remain_sub ⟨pre, rest, by simp [hL]⟩ hyp.nodup
      fun x hx c hc => by
        simp at hc; subst c; exact h.remain_before x hx op (mem_cons_self op rest) hop
  · intro x hx y hy hy'
    rcases mem_append.1 hx with hx | hx
    · exact h.remain_before x hx y (mem_cons_of_mem op hy) (fun h' => hy' (mem_append_left _ h'))
    · simp at hx; subst x; exact before_of_rest hL hy
  · intro x hx
    rcases mem_append.1 hx with hx | hx
    · exact (h.mem x hx).imp id (mem_append_left _)
    · simp at hx; subst x; exact Or.inr (by simp)
  · intro x hx hx'
    rcases mem_append.1 hx' with hx' | hx'
    · exact h.disj x hx hx'
    · simp at hx'; subst x; exact hpre (h.moved_sub.subset hx)
  · intro o ho x hx hR
    rcases hx with hx | hx
    · exact h.free o ho x (Or.inl hx) hR
    rcases mem_append.1 hx with hx | hx
    · exact h.free o ho x (Or.inr hx) hR
    · simp at hx; subst x
      have ho' := h.moved_sub.subset ho
      exact (hyp.dep o op hR (by simp [hL, ho']) hopL).not_swap hyp.nodup (before_of_pre hL ho')
  · intro o ho r hr c hc
    rcases mem_append.1 ho with ho | ho
    · exact mem_append_left _ (h.closed o ho r hr c hc)
    · simp at ho; subst o; exact absurd (let ⟨_, h⟩ := hr; h.mem_keys) hk
  · intro D hD x hx
    rcases mem_append.1 hx with hx | hx
    · exact h.least D hD x hx
    · simp at hx; subst x
      obtain ⟨y, hy, hR⟩ := hb
      exact hD.1 op hopL ⟨y, hy.imp id (h.least D hD y), hR⟩

theorem LoopInv.reject_cluster (hyp : LoopHyp blocked clusterOrder R T L vec m₀)
    (hL : L = pre ++ op :: rest) (h : LoopInv R T L m₀ pre (op :: rest) s m)
    (hop : op ∉ s.remain) (hb : ∃ x, (x ∈ T ∨ x ∈ s.remain) ∧ R op x) {r : Nat}
    (hr : Root m₀ op r) {m' : OpClusterMap} (hm' : SameForest m₀ m') :
    LoopInv R T L m₀ (pre ++ [op]) rest
      ⟨s.remain ++ clusterOrder (m₀.ops r), s.moved.filter (· ∉ clusterOrder (m₀.ops r))⟩ m' := by
  set C := clusterOrder (m₀.ops r)
  have hopL : op ∈ L := by simp [hL]
  have hC : C <:+: L := hyp.contig op hopL r hr
  have hopC : op ∈ C := (hyp.mem_order _ _).2 (hyp.mem_ops op r hr)
  have hrr : IsRoot m₀ r := let ⟨_, h⟩ := hr; h.isRoot
  have hCr : ∀ c ∈ C, Root m₀ c r := fun c hc => hyp.root_of_mem r c hrr ((hyp.mem_order _ _).1 hc)
  have hdisj : ∀ c ∈ C, c ∉ s.remain := fun c hc hc' =>
    hop (h.closed c hc' r (hCr c hc) op (hyp.mem_ops op r hr))
  refine ⟨hm', (filter_sublist _).trans (h.moved_sub.trans (sublist_append_left _ _)), ?_, ?_, ?_,
    ?_, ?_, ?_, ?_⟩
  · exact sublist_append_infix h.remain_sub hC hyp.nodup fun x hx =>
      infix_before_all hC hyp.nodup (fun hx' => hdisj x hx' hx) hopC
        (h.remain_before x hx op (mem_cons_self op rest) hop)
  · intro x hx y hy hy'
    rcases mem_append.1 hx with hx | hx
    · exact h.remain_before x hx y (mem_cons_of_mem op hy) (fun h' => hy' (mem_append_left _ h'))
    · exact infix_all_before hC hyp.nodup (fun h' => hy' (mem_append_right _ h')) hopC
        (before_of_rest hL hy) x hx
  · intro x hx
    rcases mem_append.1 hx with hx | hx
    · rcases h.mem x hx with hx' | hx'
      · by_cases hxC : x ∈ C
        · exact Or.inr (mem_append_right _ hxC)
        · exact Or.inl (mem_filter.2 ⟨hx', by simpa using hxC⟩)
      · exact Or.inr (mem_append_left _ hx')
    · simp at hx; subst x; exact Or.inr (mem_append_right _ hopC)
  · intro x hx hx'
    obtain ⟨hx, hxC⟩ := mem_filter.1 hx
    rcases mem_append.1 hx' with hx' | hx'
    · exact h.disj x hx hx'
    · simp at hxC; exact hxC hx'
  · intro o ho x hx hR
    obtain ⟨ho, hoC⟩ := mem_filter.1 ho
    rcases hx with hx | hx
    · exact h.free o ho x (Or.inl hx) hR
    rcases mem_append.1 hx with hx | hx
    · exact h.free o ho x (Or.inr hx) hR
    · have ho' := h.moved_sub.subset ho
      have hxo := hyp.dep o x hR (by simp [hL, ho']) (hC.subset hx)
      simp at hoC
      exact hoC (infix_mem_of_before hC hyp.nodup hx hopC hxo (before_of_pre hL ho'))
  · intro o ho r' hr' c hc
    rcases mem_append.1 ho with ho | ho
    · exact mem_append_left _ (h.closed o ho r' hr' c hc)
    · have : r' = r := hr'.unique (hCr o ho)
      subst this
      exact mem_append_right _ ((hyp.mem_order _ _).2 hc)
  · intro D hD x hx
    rcases mem_append.1 hx with hx | hx
    · exact h.least D hD x hx
    · obtain ⟨y, hy, hR⟩ := hb
      have hop' : D op := hD.1 op hopL ⟨y, hy.imp id (h.least D hD y), hR⟩
      exact hD.2 op r hop' hr x ((hyp.mem_order _ _).1 hx)

theorem LoopInv.move (hyp : LoopHyp blocked clusterOrder R T L vec m₀)
    (hL : L = pre ++ op :: rest) (h : LoopInv R T L m₀ pre (op :: rest) s m)
    (hop : op ∉ s.remain) (hnb : ∀ x, (x ∈ T ∨ x ∈ s.remain) → ¬R op x) :
    LoopInv R T L m₀ (pre ++ [op]) rest ⟨s.remain, insertOp s.moved op⟩ m := by
  have hpre := not_mem_pre hL hyp.nodup
  rw [insertOp_of_not_mem (fun h' => hpre (h.moved_sub.subset h'))]
  refine ⟨h.same, h.moved_sub.append (Sublist.refl _), h.remain_sub,
    fun x hx y hy => h.remain_before x hx y (mem_cons_of_mem op hy), ?_, ?_, ?_, h.closed, h.least⟩
  · intro x hx
    rcases mem_append.1 hx with hx | hx
    · exact (h.mem x hx).imp (mem_append_left _) id
    · exact Or.inl (mem_append_right _ hx)
  · intro x hx
    rcases mem_append.1 hx with hx | hx
    · exact h.disj x hx
    · simp at hx; subst x; exact hop
  · intro o ho
    rcases mem_append.1 ho with ho | ho
    · exact h.free o ho
    · simp at ho; subst o; exact hnb

theorem blocked_or_iff (hyp : LoopHyp blocked clusterOrder R T L vec m₀) {S : List Nat}
    (hS : S ⊆ L) (o : Nat) :
    (blocked T o || blocked S o) = true ↔ ∃ x, (x ∈ T ∨ x ∈ S) ∧ R o x := by
  rw [Bool.or_eq_true, hyp.blocked_iff T o (subset_append_left T L),
    hyp.blocked_iff S o (fun x hx => mem_append_right T (hS hx))]
  constructor
  · rintro (⟨x, hx, hR⟩ | ⟨x, hx, hR⟩)
    · exact ⟨x, Or.inl hx, hR⟩
    · exact ⟨x, Or.inr hx, hR⟩
  · rintro ⟨x, hx | hx, hR⟩
    · exact Or.inl ⟨x, hx, hR⟩
    · exact Or.inr ⟨x, hx, hR⟩

/-- The loop keeps `LoopInv` to its end, without aborting. -/
theorem moveLoop_inv (hyp : LoopHyp blocked clusterOrder R T L vec m₀) :
    ∀ rest pre s m, L = pre ++ rest → LoopInv R T L m₀ pre rest s m →
      ∃ s' m', moveLoop true blocked clusterOrder T vec rest (s, m) = some (s', m') ∧
        LoopInv R T L m₀ L [] s' m'
  | [], pre, s, m, hL, h => ⟨s, m, rfl, by simpa [hL] using h⟩
  | op :: rest, pre, s, m, hL, h => by
    have hL' : L = (pre ++ [op]) ++ rest := by simp [hL]
    by_cases hop : op ∈ s.remain
    · simp only [moveLoop, hop, if_true]
      exact moveLoop_inv hyp rest _ s m hL' (h.skip hop)
    have hblk := blocked_or_iff hyp (h.remain_sub.subset) op
    by_cases hb : (blocked T op || blocked s.remain op) = true
    · have hb' := hblk.1 hb
      cases hk : m.find op with
      | none =>
        have hk' : op ∉ m₀.keys := by
          rw [← h.same.keys_eq, ← find_isSome_iff, hk]; simp
        simp only [moveLoop, hop, hb, hk, if_false, if_true]
        exact moveLoop_inv hyp rest _ _ m hL' (h.reject_single hyp hL hop hb' hk')
      | some c =>
        have hkm : op ∈ m₀.keys := by
          rw [← h.same.keys_eq, ← find_isSome_iff, hk]; simp
        obtain ⟨r, hr⟩ := hyp.rooted op hkm
        obtain ⟨m', hget, hm'⟩ := getRoot_of_root ((h.same.root_iff op r).2 hr)
        have hsame := h.same.trans hm'
        have hops : m'.ops r = m₀.ops r := hsame.ops_eq r
        have hC := hyp.contig op (by simp [hL]) r hr
        have hrr : IsRoot m₀ r := let ⟨_, h⟩ := hr; h.isRoot
        have hrej := @rejectCluster_true vec _ s
          (fun x hx => (hyp.mem_vec x).2 (hC.subset hx)) (hC.sublist.nodup hyp.nodup)
          (fun c hc hc' => hop (h.closed c hc' r (hyp.root_of_mem r c hrr
            ((hyp.mem_order _ _).1 hc)) op (hyp.mem_ops op r hr)))
          (h.moved_sub.nodup (by rw [hL] at hyp; exact (nodup_append.1 hyp.nodup).1))
        simp only [moveLoop, hop, hb, hk, if_false, if_true, hget, hops, hrej]
        exact moveLoop_inv hyp rest _ _ m' hL' (h.reject_cluster hyp hL hop hb' hr hsame)
    · simp only [moveLoop, hop, hb, if_false]
      exact moveLoop_inv hyp rest _ _ m hL'
        (h.move hyp hL hop fun x hx hR => hb (hblk.2 ⟨x, hx, hR⟩))

/-- **The move phases with assertions enabled.** On a list whose clusters are contiguous
    and whose dependencies point backwards, `moveLoop` returns without aborting, only
    compresses paths, and splits the list as `PhaseSpec` says. -/
theorem moveLoop_spec (hyp : LoopHyp blocked clusterOrder R T L vec m₀) :
    ∃ s m, moveLoop true blocked clusterOrder T vec L (⟨[], []⟩, m₀) = some (s, m) ∧
      SameForest m₀ m ∧ PhaseSpec R T L m₀ s := by
  obtain ⟨s, m, h, hinv⟩ := moveLoop_inv hyp L [] ⟨[], []⟩ m₀ rfl (.start (.refl m₀))
  exact ⟨s, m, h, hinv.same, ⟨hinv.moved_sub, hinv.remain_sub, hinv.mem, hinv.disj, hinv.free,
    hinv.closed, hinv.least⟩⟩

end Spec

/-! ## The two phases -/

section Phases

variable {f : Func} {T L : List Nat} {m : OpClusterMap}

/-- **`computeMoveUpSet` with assertions enabled.** It returns the moved ops and the
    residual of `moveLoop` on `src` with the relation "uses a result of". -/
theorem computeMoveUpSet_spec
    (hyp : LoopHyp (fun S op => (f.opOf op).anyDefIn S) id f.Uses T L L m) :
    ∃ s m', computeMoveUpSet true f T L m = some (s.moved, s.remain, m') ∧ SameForest m m' ∧
      PhaseSpec f.Uses T L m s := by
  obtain ⟨s, m', h, hm, hs⟩ := moveLoop_spec hyp
  exact ⟨s, m', by simp [computeMoveUpSet, h], hm, hs⟩

/-- **`computeMoveDownSet` with assertions enabled.** It runs `moveLoop` on `src` in
    reverse with the relation "has a result used by", and returns the residual in the
    order of `src`. -/
theorem computeMoveDownSet_spec
    (hyp : LoopHyp (fun S op => anyUseIn f op S) reverse (flip f.Uses) T L.reverse L m) :
    ∃ s m', computeMoveDownSet true f T L m = some (s.moved, s.remain.reverse, m') ∧
      SameForest m m' ∧ PhaseSpec (flip f.Uses) T L.reverse m s := by
  obtain ⟨s, m', h, hm, hs⟩ := moveLoop_spec hyp
  refine ⟨s, m', ?_, hm, hs⟩
  have hnd : ([] ++ s.remain.reverse).Nodup := by simpa using hs.remain_sub.nodup hyp.nodup
  simp only [computeMoveDownSet, h, Option.map_some', foldl_insertOp_of_nodup hnd, nil_append]

end Phases

end GraphClustering
