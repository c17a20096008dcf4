/-
  `ActiveDeviceCluster::tryMergeInto` and `tryMerge`.

  * `ClusterState` is what a clustering run changes: the order of the entry block and
    `op2cluster`;
  * `tryMergeInto` runs the two phases on the ops between the clusters (up first when
    `from` comes first, down first otherwise), gives up if an op is left, and otherwise
    moves the ops and splices the op lists;
  * `ValidSplit` is the declarative condition for a merge: a split of the gap into ops
    that can go above the earlier cluster and ops that can go below the later one.
-/
import GraphClustering.MoveSet

namespace GraphClustering

open List OpClusterMap

/-- What a clustering run changes: the top-level ops of the entry block in order
    (terminator last), and `op2cluster`. -/
structure ClusterState where
  block : List Nat
  op2cluster : OpClusterMap
  deriving DecidableEq, Repr

/-- `SetVector::insert(first, last)`: insert the ops of `l` in order. -/
def insertAll (acc l : List Nat) : List Nat := l.foldl insertOp acc

/-- The map after a merge of `fromC` into `toC` that leaves `ops` on `toC`: the op list of
    `fromC` is empty (taken by `takeVector`, or moved from) and `fromC` points at `toC`. -/
def spliceInto (m : OpClusterMap) (fromC toC : Nat) (ops : List Nat) : OpClusterMap :=
  (m.modify toC fun c => { c with operations := ops }).modify fromC
    fun c => { c with operations := [], mergedInto := some toC }

/-- `ActiveDeviceCluster::tryMergeInto(from, to, op2cluster)`: `some (true, _)` if `from`
    was merged into `to`, `some (false, _)` if it gave up (only paths were compressed),
    `none` if the program aborts (an assertion fails, or `front()`/`back()` of an empty
    op list). If `from` comes first its ops stay above those of `to`; if `to` comes first
    the ops of `from` are appended to those of `to`. -/
def tryMergeInto (assertions : Bool) (f : Func) (st : ClusterState) (fromC toC : Nat) :
    Option (Bool × ClusterState) := do
  let m := st.op2cluster
  let fromFront ← (m.ops fromC).head?
  let fromBack ← (m.ops fromC).getLast?
  let toFront ← (m.ops toC).head?
  let toBack ← (m.ops toC).getLast?
  if isBeforeInBlock st.block fromBack toFront then
    let toMove := between st.block fromBack toFront
    let (moveUp, toMove, m) ← computeMoveUpSet assertions f (m.ops fromC) toMove m
    let (moveDown, toMove, m) ← computeMoveDownSet assertions f (m.ops toC) toMove m
    if toMove ≠ [] then return (false, ⟨st.block, m⟩)
    let block := moveUp.foldl (fun b op => moveBefore b op fromFront) st.block
    let block := moveDown.foldl (fun b op => moveAfter b op toBack) block
    return (true, ⟨block, spliceInto m fromC toC (insertAll (m.ops fromC) (m.ops toC))⟩)
  else if isBeforeInBlock st.block toBack fromFront then
    let toMove := between st.block toBack fromFront
    let (moveDown, toMove, m) ← computeMoveDownSet assertions f (m.ops fromC) toMove m
    let (moveUp, toMove, m) ← computeMoveUpSet assertions f (m.ops toC) toMove m
    if toMove ≠ [] then return (false, ⟨st.block, m⟩)
    let block := moveUp.foldl (fun b op => moveBefore b op toFront) st.block
    let block := moveDown.foldl (fun b op => moveAfter b op fromBack) block
    return (true, ⟨block, spliceInto m fromC toC (insertAll (m.ops toC) (m.ops fromC))⟩)
  else none

/-- `ActiveDeviceCluster::tryMerge(lhs, rhs, op2cluster)`: try `lhs` into `rhs`, then `rhs`
    into `lhs`; returns the surviving root (`none` for `nullptr`). Clusters are named by
    their keys; `none` for a null pointer. -/
def tryMerge (assertions : Bool) (f : Func) (st : ClusterState) (lhs rhs : Option Nat) :
    Option (Option Nat × ClusterState) :=
  match lhs, rhs with
  | some l, some r =>
    if l = r then some (none, st) else
    match st.op2cluster.find l, st.op2cluster.find r with
    | some cl, some cr =>
      if cl.mergedInto.isSome || cr.mergedInto.isSome then some (none, st) else do
        let (merged, st) ← tryMergeInto assertions f st l r
        if merged then return (some r, st)
        let (merged, st) ← tryMergeInto assertions f st r l
        if merged then return (some l, st)
        return (none, st)
    | _, _ => none
  | _, _ => some (none, st)

/-- A split of the gap `G` between the earlier cluster `A` and the later cluster `B` into
    `U`, to go above `A`, and `D`, to go below `B`, for the dependency relation `R`
    (`R u d`: `u`, or an op nested in it, uses a result of `d`): each root cluster meeting
    `G` lies wholly on one side, no op of `U` depends on an op of `A` or of `D`, and no op
    of `B` or of `U` depends on an op of `D`. -/
structure ValidSplit (R : Nat → Nat → Prop) (m : OpClusterMap) (A B G U D : List Nat) :
    Prop where
  mem_iff : ∀ x, x ∈ G ↔ x ∈ U ∨ x ∈ D
  disj : ∀ x ∈ U, x ∉ D
  cluster : ∀ o ∈ G, ∀ r, Root m o r → (∀ c ∈ m.ops r, c ∈ U) ∨ (∀ c ∈ m.ops r, c ∈ D)
  up : ∀ u ∈ U, ∀ d, R u d → d ∉ A ∧ d ∉ D
  down : ∀ d ∈ D, ∀ u, R u d → u ∉ B ∧ u ∉ U

/-- Only membership in `U` and `D` matters. -/
theorem ValidSplit.congr {R : Nat → Nat → Prop} {m : OpClusterMap} {A B G U D U' D' : List Nat}
    (h : ValidSplit R m A B G U D) (hU : ∀ x, x ∈ U ↔ x ∈ U') (hD : ∀ x, x ∈ D ↔ x ∈ D') :
    ValidSplit R m A B G U' D' where
  mem_iff x := by rw [h.mem_iff, hU, hD]
  disj x hx hx' := h.disj x ((hU x).2 hx) ((hD x).2 hx')
  cluster o ho r hr := (h.cluster o ho r hr).imp (fun h c hc => (hU c).1 (h c hc))
    (fun h c hc => (hD c).1 (h c hc))
  up u hu d hR := by rw [← hD]; exact h.up u ((hU u).2 hu) d hR
  down d hd u hR := by rw [← hU]; exact h.down d ((hD d).2 hd) u hR

theorem ValidSplit.of_sameForest {R : Nat → Nat → Prop} {m m' : OpClusterMap}
    {A B G U D : List Nat} (h : ValidSplit R m A B G U D) (hm : SameForest m m') :
    ValidSplit R m' A B G U D where
  __ := h
  cluster o ho r hr := by rw [hm.ops_eq]; exact h.cluster o ho r ((hm.root_iff o r).1 hr)

/-- Reading the block backwards swaps the roles of the two sides. -/
theorem ValidSplit.swap {R : Nat → Nat → Prop} {m : OpClusterMap} {A B G U D : List Nat}
    (h : ValidSplit R m A B G U D) : ValidSplit (flip R) m B A G D U where
  mem_iff x := (h.mem_iff x).trans or_comm
  disj x hx hx' := h.disj x hx' hx
  cluster o ho r hr := (h.cluster o ho r hr).symm
  up u hu d := h.down u hu d
  down d hd u := h.up d hd u

/-! ## The map after a merge -/

section Splice

variable {m : OpClusterMap} {fromC toC : Nat} {ops : List Nat}

theorem find_spliceInto (hne : fromC ≠ toC) (k : Nat) : (spliceInto m fromC toC ops).find k =
    if k = fromC then
      (m.find fromC).map fun c => { c with operations := [], mergedInto := some toC }
    else if k = toC then (m.find toC).map fun c => { c with operations := ops }
    else m.find k := by
  unfold spliceInto
  rw [find_modify]
  split
  · subst k; rw [find_modify_ne hne]
  · exact find_modify

theorem isRoot_spliceInto (hne : fromC ≠ toC) {k : Nat} :
    IsRoot (spliceInto m fromC toC ops) k ↔ IsRoot m k ∧ k ≠ fromC := by
  simp only [IsRoot, find_spliceInto hne]
  split
  · simp_all
  · split <;> simp_all

theorem ops_spliceInto (hne : fromC ≠ toC) (ht : toC ∈ m.keys) {k : Nat} :
    (spliceInto m fromC toC ops).ops k =
      if k = fromC then [] else if k = toC then ops else m.ops k := by
  obtain ⟨c, hc⟩ := Option.isSome_iff_exists.1 (find_isSome_iff.2 ht)
  simp only [OpClusterMap.ops, find_spliceInto hne]
  split
  · subst k; cases m.find fromC <;> rfl
  · split
    · subst k; simp [hc]
    · rfl

/-- After the merge the clusters rooted at `fromC` are rooted at `toC`; no other root
    changes. -/
theorem root_spliceInto (hne : fromC ≠ toC) (hf : IsRoot m fromC) (ht : IsRoot m toC)
    {k r : Nat} : Root (spliceInto m fromC toC ops) k r ↔
      (Root m k r ∧ r ≠ fromC) ∨ (Root m k fromC ∧ r = toC) := by
  have hfind : ∀ k, (spliceInto m fromC toC ops).find k = _ := find_spliceInto hne
  constructor
  · rintro ⟨n, h⟩
    induction h with
    | @root k c hk hc =>
      rw [hfind] at hk
      split at hk
      · simp at hk; obtain ⟨_, _, rfl⟩ := hk; simp at hc
      split at hk
      · subst k; simp at hk; obtain ⟨c', hc', rfl⟩ := hk
        exact Or.inl ⟨ht.root, hne.symm⟩
      · exact Or.inl ⟨⟨0, .root hk hc⟩, ‹_›⟩
    | @step k c p r n hk hc hp ih =>
      rw [hfind] at hk
      split at hk
      · subst k; simp at hk; obtain ⟨_, _, rfl⟩ := hk
        cases hc
        rcases ih with ⟨hpr, -⟩ | ⟨hpf, -⟩
        · exact Or.inr ⟨hf.root, hpr.eq_of_isRoot ht⟩
        · exact absurd (hpf.eq_of_isRoot ht) hne
      split at hk
      · subst k; simp at hk; obtain ⟨c', hc', rfl⟩ := hk
        obtain ⟨c'', hc'', hn⟩ := ht; rw [hc''] at hc'; cases hc'; simp_all
      · rcases ih with ⟨⟨n', hpr⟩, hr⟩ | ⟨⟨n', hpf⟩, hr⟩
        · exact Or.inl ⟨⟨_, .step hk hc hpr⟩, hr⟩
        · exact Or.inr ⟨⟨_, .step hk hc hpf⟩, hr⟩
  · have hnr : ∀ {k c p}, m.find k = some c → c.mergedInto = some p → k ≠ fromC ∧ k ≠ toC := by
      intro k c p hk hc
      constructor <;> rintro rfl
      · obtain ⟨c', hc', hn⟩ := hf; rw [hc'] at hk; cases hk; simp_all
      · obtain ⟨c', hc', hn⟩ := ht; rw [hc'] at hk; cases hk; simp_all
    rintro (⟨⟨n, h⟩, hr⟩ | ⟨⟨n, h⟩, hrt⟩)
    · induction h with
      | @root k c hk hc =>
        refine ⟨0, .root (c := if k = toC then { c with operations := ops } else c) ?_ ?_⟩
        · rw [hfind, if_neg hr]; split <;> simp_all
        · split <;> simp [hc]
      | @step k c p r n hk hc hp ih =>
        obtain ⟨n', ih⟩ := ih hr
        obtain ⟨h₁, h₂⟩ := hnr hk hc
        exact ⟨_, .step (by rw [hfind, if_neg h₁, if_neg h₂]; exact hk) hc ih⟩
    · rw [hrt]
      suffices ∀ {k r n}, RootOf m k r n → r = fromC → Root (spliceInto m fromC toC ops) k toC from
        this h rfl
      intro k r n h
      induction h with
      | @root k c hk hc =>
        intro hkf; subst k
        obtain ⟨c', hc', hn⟩ := ht
        refine ⟨1, .step (by rw [hfind, if_pos rfl, hk]; rfl) rfl
          (.root (c := { c' with operations := ops }) ?_ hn)⟩
        rw [hfind, if_neg hne.symm, if_pos rfl, hc']; rfl
      | @step k c p r n hk hc hp ih =>
        intro hrf
        obtain ⟨n', ih⟩ := ih hrf
        obtain ⟨h₁, h₂⟩ := hnr hk hc
        exact ⟨_, .step (by rw [hfind, if_neg h₁, if_neg h₂]; exact hk) hc ih⟩

end Splice

/-! ## Two phases in a row

`tryMergeInto` runs a phase with the relation `R` towards the cluster `A`, and then one
with the converse relation towards the cluster `B` on what the first left. When the second
leaves nothing, the two moved sets are a `ValidSplit`; conversely a `ValidSplit` leaves
nothing to the second phase. -/

section TwoPhase

variable {R : Nat → Nat → Prop} {m : OpClusterMap} {A B G L₁ L₂ : List Nat} {s₁ s₂ : MoveSets}

theorem validSplit_of_phases (h₁ : PhaseSpec R A L₁ m s₁) (h₂ : PhaseSpec (flip R) B L₂ m s₂)
    (hL₁ : ∀ x, x ∈ L₁ ↔ x ∈ G) (hL₂ : ∀ x, x ∈ L₂ ↔ x ∈ s₁.remain)
    (hG : ∀ o ∈ G, ∀ r, Root m o r → ∀ c ∈ m.ops r, c ∈ G)
    (hmates : ∀ o r, Root m o r → ∀ c ∈ m.ops r, Root m c r)
    (hmem : ∀ o r, Root m o r → o ∈ m.ops r) (he : s₂.remain = []) :
    ValidSplit R m A B G s₁.moved s₂.moved := by
  have hrem₁ : ∀ x ∈ s₁.remain, x ∈ G := fun x hx => (hL₁ x).1 (h₁.remain_sub.subset hx)
  have hmov₂ : ∀ x ∈ s₂.moved, x ∈ s₁.remain := fun x hx => (hL₂ x).1 (h₂.moved_sub.subset hx)
  refine ⟨fun x => ⟨fun hx => ?_, ?_⟩, fun x hx hx' => h₁.disj x hx (hmov₂ x hx'), ?_, ?_, ?_⟩
  · rcases h₁.mem x ((hL₁ x).2 hx) with hx | hx
    · exact Or.inl hx
    · exact Or.inr ((h₂.mem x ((hL₂ x).2 hx)).resolve_right (by simp [he]))
  · rintro (hx | hx)
    · exact (hL₁ x).1 (h₁.moved_sub.subset hx)
    · exact hrem₁ x (hmov₂ x hx)
  · intro o ho r hr
    rcases h₁.mem o ((hL₁ o).2 ho) with hom | hor
    · refine Or.inl fun c hc => (h₁.mem c ((hL₁ c).2 (hG o ho r hr c hc))).resolve_right
        fun hcr => h₁.disj o hom (h₁.closed c hcr r (hmates o r hr c hc) o (hmem o r hr))
    · exact Or.inr fun c hc => (h₂.mem c ((hL₂ c).2 (h₁.closed o hor r hr c hc))).resolve_right
        (by simp [he])
  · exact fun u hu d hR => ⟨fun hd => h₁.free u hu d (Or.inl hd) hR,
      fun hd => h₁.free u hu d (Or.inr (hmov₂ d hd)) hR⟩
  · exact fun d hd u hR => ⟨fun hu => h₂.free d hd u (Or.inl hu) hR,
      fun hu => h₁.free u hu d (Or.inr (hmov₂ d hd)) hR⟩

theorem remain_eq_nil_of_validSplit (h₁ : PhaseSpec R A L₁ m s₁)
    (h₂ : PhaseSpec (flip R) B L₂ m s₂) (hL₁ : ∀ x, x ∈ L₁ ↔ x ∈ G)
    (hL₂ : ∀ x, x ∈ L₂ ↔ x ∈ s₁.remain) (hmem : ∀ o r, Root m o r → o ∈ m.ops r)
    {U D : List Nat} (hv : ValidSplit R m A B G U D) : s₂.remain = [] := by
  have hD : ∀ x ∈ s₁.remain, x ∈ D := by
    refine h₁.least (· ∈ D) ⟨fun o ho ⟨x, hx, hR⟩ => ?_, fun o r ho hr c hc => ?_⟩
    · refine ((hv.mem_iff o).1 ((hL₁ o).1 ho)).resolve_left fun hu => ?_
      obtain ⟨hA, hD⟩ := hv.up o hu x hR
      exact hx.elim hA hD
    · exact ((hv.cluster o ((hv.mem_iff o).2 (Or.inr ho)) r hr).resolve_left
        fun hU => hv.disj o (hU o (hmem o r hr)) ho) c hc
  refine eq_nil_iff_forall_not_mem.2 fun x hx => h₂.least (fun _ => False) ⟨?_, by simp⟩ x hx
  rintro o ho ⟨x, hx | hx, hR⟩
  · exact (hv.down o (hD o ((hL₂ o).1 ho)) x hR).1 hx
  · exact hx

end TwoPhase

end GraphClustering
