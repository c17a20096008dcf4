/-
  `ActiveDeviceCluster` and `op2cluster`: the disjoint-set forest of clusters.

  * a cluster is named by its key in `op2cluster`, the op it was created for; `getRoot`
    follows `mergedInto` and compresses the path (with `fuel` for the recursion);
  * `RootOf m k r n`: the chain of `mergedInto` links from `k` reaches the root `r` in `n`
    steps; `RootOf.lt_length` bounds `n` by the size of the map, so `getRoot` with
    `fuel = m.length` always returns (`getRoot_spec`), and `SameForest` says that the
    compressed map has the same keys, op lists and roots;
  * `getRoot_compresses`: whenever `getRoot` returns, it returns the root, the same forest,
    and every cluster on the path of `mergedInto` links from `k` linked straight to the root;
  * `initClusters` is the constructor of `DeviceClusteringAlgoBaseHelper`.
-/
import Mathlib.Logic.Relation
import GraphClustering.Block

namespace GraphClustering

open List

/-- `ActiveDeviceCluster`: its op list (an `OpList`, a `SetVector`) and the cluster it was
    merged into, `none` for a root. -/
structure ActiveDeviceCluster where
  operations : List Nat
  mergedInto : Option Nat
  deriving DecidableEq, Repr

/-- `OpClusterMap`, the `DenseMap<Operation *, ActiveDeviceCluster>` `op2cluster`, as the
    list of its entries. -/
abbrev OpClusterMap := List (Nat × ActiveDeviceCluster)

namespace OpClusterMap

/-- `op2cluster.find(k)`. -/
def find : OpClusterMap → Nat → Option ActiveDeviceCluster
  | [], _ => none
  | (k', c) :: m, k => if k' = k then some c else find m k

/-- The keys of the map. -/
def keys (m : OpClusterMap) : List Nat := m.map Prod.fst

/-- Apply `g` to the cluster with key `k`. -/
def modify (m : OpClusterMap) (k : Nat) (g : ActiveDeviceCluster → ActiveDeviceCluster) :
    OpClusterMap :=
  m.map fun p => if p.1 = k then (p.1, g p.2) else p

/-- The op list of the cluster with key `k` (empty if there is none). -/
def ops (m : OpClusterMap) (k : Nat) : List Nat := ((m.find k).map (·.operations)).getD []

/-- The cluster with key `k` is a root. -/
def IsRoot (m : OpClusterMap) (k : Nat) : Prop := ∃ c, m.find k = some c ∧ c.mergedInto = none

variable {m : OpClusterMap} {k k' : Nat} {g : ActiveDeviceCluster → ActiveDeviceCluster}

@[simp] theorem find_nil : find [] k = none := rfl

theorem find_cons (c : ActiveDeviceCluster) :
    find ((k', c) :: m) k = if k' = k then some c else find m k := rfl

theorem find_modify_self : (m.modify k g).find k = (m.find k).map g := by
  induction m with
  | nil => rfl
  | cons p m ih =>
    obtain ⟨k₀, c₀⟩ := p
    by_cases h : k₀ = k
    · subst h; simp [modify, find_cons]
    · simp only [modify, map_cons, h, if_false, find_cons] at ih ⊢; exact ih

theorem find_modify_ne (h : k' ≠ k) : (m.modify k g).find k' = m.find k' := by
  induction m with
  | nil => rfl
  | cons p m ih =>
    obtain ⟨k₀, c₀⟩ := p
    by_cases hp : k₀ = k
    · subst hp; simp only [modify, map_cons, if_true, find_cons, Ne.symm h] at ih ⊢; exact ih
    · simp only [modify, map_cons, hp, if_false, find_cons] at ih ⊢; rw [ih]

theorem find_modify : (m.modify k g).find k' = if k' = k then (m.find k).map g else m.find k' := by
  split
  · subst_vars; exact find_modify_self
  · exact find_modify_ne ‹_›

@[simp] theorem keys_modify : (m.modify k g).keys = m.keys := by
  simp only [OpClusterMap.keys, modify, map_map]
  congr 1; funext p; by_cases h : p.1 = k <;> simp [h]

@[simp] theorem length_modify : (m.modify k g).length = m.length := by simp [modify]

theorem find_isSome_iff : (m.find k).isSome ↔ k ∈ m.keys := by
  induction m with
  | nil => simp [OpClusterMap.keys]
  | cons p m ih =>
    obtain ⟨k₀, c₀⟩ := p
    by_cases h : k₀ = k
    · subst h; simp [OpClusterMap.keys, find_cons]
    · simp only [find_cons, h, if_false, ih, OpClusterMap.keys, map_cons, mem_cons, Ne.symm h,
        false_or]

theorem mem_keys_of_find {c : ActiveDeviceCluster} (h : m.find k = some c) : k ∈ m.keys :=
  find_isSome_iff.1 (by simp [h])

theorem ops_modify : (m.modify k g).ops k' =
    if k' = k then ((m.find k).map fun c => (g c).operations).getD [] else m.ops k' := by
  simp only [ops, find_modify]
  split <;> simp [Option.map_map, Function.comp_def]

end OpClusterMap

open OpClusterMap

/-! ## Roots -/

/-- `ActiveDeviceCluster::getRoot` of the cluster with key `k`: follow `mergedInto` to the
    root and point every cluster on the way at it. `fuel` bounds the recursion: `none` when
    it runs out, or when a link leads out of the map. -/
def getRoot (m : OpClusterMap) : Nat → Nat → Option (Nat × OpClusterMap)
  | 0, _ => none
  | fuel + 1, k =>
    match m.find k with
    | none => none
    | some c =>
      match c.mergedInto with
      | none => some (k, m)
      | some p =>
        match getRoot m fuel p with
        | none => none
        | some (r, m') => some (r, m'.modify k fun c => { c with mergedInto := some r })

/-- Following `mergedInto` from the cluster `k` reaches the root `r` in `n` steps. -/
inductive RootOf (m : OpClusterMap) : Nat → Nat → Nat → Prop
  | root {k c} : m.find k = some c → c.mergedInto = none → RootOf m k k 0
  | step {k c p r n} : m.find k = some c → c.mergedInto = some p → RootOf m p r n →
      RootOf m k r (n + 1)

/-- The cluster `k` has the root `r`. -/
def Root (m : OpClusterMap) (k r : Nat) : Prop := ∃ n, RootOf m k r n

variable {m m' : OpClusterMap} {k r : Nat}

theorem RootOf.unique {n r' n'} (h : RootOf m k r n) (h' : RootOf m k r' n') :
    r = r' ∧ n = n' := by
  induction h generalizing n' with
  | root hk hc =>
    cases h' with
    | root => exact ⟨rfl, rfl⟩
    | step hk' hc' _ => simp_all
  | step hk hc _ ih =>
    cases h' with
    | root hk' hc' => simp_all
    | step hk' hc' hp =>
      rw [hk] at hk'; cases hk'; rw [hc] at hc'; cases hc'
      exact (ih hp).imp id (congrArg (· + 1))

theorem Root.unique {r'} (h : Root m k r) (h' : Root m k r') : r = r' := by
  obtain ⟨n, h⟩ := h; obtain ⟨n', h'⟩ := h'
  exact (h.unique h').1

theorem RootOf.isRoot {n} (h : RootOf m k r n) : IsRoot m r := by
  induction h with
  | root hk hc => exact ⟨_, hk, hc⟩
  | step _ _ _ ih => exact ih

theorem RootOf.mem_keys {n} (h : RootOf m k r n) : k ∈ m.keys := by
  cases h with
  | root hk _ => exact mem_keys_of_find hk
  | step hk _ _ => exact mem_keys_of_find hk

theorem OpClusterMap.IsRoot.root (h : IsRoot m r) : Root m r r := by
  obtain ⟨c, hk, hc⟩ := h; exact ⟨0, .root hk hc⟩

theorem Root.eq_of_isRoot (h : Root m k r) (hk : IsRoot m k) : r = k :=
  h.unique hk.root

/-- The clusters on a chain of `n` links are `n + 1` distinct keys. -/
theorem RootOf.exists_path {n} (h : RootOf m k r n) :
    ∃ P : List Nat, P.length = n + 1 ∧ P.Nodup ∧
      ∀ x ∈ P, x ∈ m.keys ∧ ∃ d ≤ n, RootOf m x r d := by
  induction h with
  | @root k c hk hc =>
    refine ⟨[k], rfl, nodup_singleton k, fun x hx => ?_⟩
    rw [mem_singleton] at hx; subst hx
    exact ⟨mem_keys_of_find hk, 0, le_rfl, .root hk hc⟩
  | @step k c p r n hk hc hp ih =>
    obtain ⟨P, hlen, hnd, hP⟩ := ih
    have hkP : k ∉ P := fun hm => by
      obtain ⟨-, d, hd, hkd⟩ := hP k hm
      have := ((RootOf.step hk hc hp).unique hkd).2
      omega
    refine ⟨k :: P, by simp [hlen], nodup_cons.2 ⟨hkP, hnd⟩, ?_⟩
    intro x hx
    rcases mem_cons.1 hx with rfl | hx
    · exact ⟨mem_keys_of_find hk, n + 1, le_rfl, .step hk hc hp⟩
    · obtain ⟨hx, d, hd, hxd⟩ := hP x hx
      exact ⟨hx, d, by omega, hxd⟩

theorem RootOf.lt_length {n} (h : RootOf m k r n) : n < m.length := by
  obtain ⟨P, hlen, hnd, hP⟩ := h.exists_path
  have := (hnd.subperm fun x hx => (hP x hx).1).length_le
  simp [OpClusterMap.keys] at this
  omega

/-- Two maps with the same keys, op lists and roots: `getRoot` only compresses paths. -/
structure SameForest (m m' : OpClusterMap) : Prop where
  keys_eq : m'.keys = m.keys
  ops_eq : ∀ k, m'.ops k = m.ops k
  root_iff : ∀ k r, Root m' k r ↔ Root m k r

theorem SameForest.refl (m : OpClusterMap) : SameForest m m :=
  ⟨rfl, fun _ => rfl, fun _ _ => Iff.rfl⟩

theorem SameForest.symm (h : SameForest m m') : SameForest m' m :=
  ⟨h.keys_eq.symm, fun k => (h.ops_eq k).symm, fun k r => (h.root_iff k r).symm⟩

theorem SameForest.trans {m'' : OpClusterMap} (h : SameForest m m') (h' : SameForest m' m'') :
    SameForest m m'' :=
  ⟨h'.keys_eq.trans h.keys_eq, fun k => (h'.ops_eq k).trans (h.ops_eq k),
    fun k r => (h'.root_iff k r).trans (h.root_iff k r)⟩

theorem SameForest.isRoot_iff (h : SameForest m m') : IsRoot m' r ↔ IsRoot m r := by
  constructor
  · intro hr
    obtain ⟨n, hn⟩ := (h.root_iff r r).1 hr.root
    exact hn.isRoot
  · intro hr
    obtain ⟨n, hn⟩ := (h.root_iff r r).2 hr.root
    exact hn.isRoot

/-- Pointing the non-root cluster `x` straight at its root `r` changes no cluster's root. -/
theorem root_compress_iff {x r k r' : Nat} (hx : Root m x r) (hxr : x ≠ r) :
    Root (m.modify x fun c => { c with mergedInto := some r }) k r' ↔ Root m k r' := by
  have hrr : IsRoot m r := by obtain ⟨n, h⟩ := hx; exact h.isRoot
  have hfr : (m.modify x fun c => { c with mergedInto := some r }).find r = m.find r :=
    find_modify_ne (Ne.symm hxr)
  constructor
  · rintro ⟨n, h⟩
    induction h with
    | @root k c hk hc =>
      by_cases hkx : k = x
      · subst hkx
        rw [find_modify_self] at hk
        obtain ⟨c₀, -, rfl⟩ := Option.map_eq_some'.1 hk
        simp at hc
      · rw [find_modify_ne hkx] at hk; exact ⟨0, .root hk hc⟩
    | @step k c p r₁ n hk hc hp ih =>
      by_cases hkx : k = x
      · subst hkx
        rw [find_modify_self] at hk
        obtain ⟨c₀, -, rfl⟩ := Option.map_eq_some'.1 hk
        cases hc
        rw [ih.eq_of_isRoot hrr]; exact hx
      · rw [find_modify_ne hkx] at hk
        obtain ⟨n, ih⟩ := ih
        exact ⟨_, .step hk hc ih⟩
  · rintro ⟨n, h⟩
    induction h with
    | @root k c hk hc =>
      have hkx : k ≠ x := by
        rintro rfl; exact hxr (hx.eq_of_isRoot ⟨c, hk, hc⟩).symm
      rw [← find_modify_ne hkx (g := fun c => { c with mergedInto := some r })] at hk
      exact ⟨0, .root hk hc⟩
    | @step k c p r₁ n hk hc hp ih =>
      by_cases hkx : k = x
      · subst hkx
        have : r₁ = r := Root.unique ⟨_, .step hk hc hp⟩ hx
        subst this
        obtain ⟨c₀, hc₀, hc₀r⟩ := hrr
        exact ⟨1, .step (c := { c with mergedInto := some r₁ }) (by rw [find_modify_self, hk]; rfl)
          rfl (.root (hfr.trans hc₀) hc₀r)⟩
      · rw [← find_modify_ne hkx (g := fun c => { c with mergedInto := some r })] at hk
        obtain ⟨n, ih⟩ := ih
        exact ⟨_, .step hk hc ih⟩

theorem sameForest_compress {x r : Nat} (hx : Root m x r) (hxr : x ≠ r) :
    SameForest m (m.modify x fun c => { c with mergedInto := some r }) :=
  ⟨keys_modify, fun k => by rw [ops_modify]; split <;> simp_all [ops],
    fun _ _ => root_compress_iff hx hxr⟩

/-- `getRoot` with more fuel than links returns the root, with a map in which only
    paths were compressed. -/
theorem getRoot_spec {n fuel : Nat} (h : RootOf m k r n) (hf : n < fuel) :
    ∃ m', getRoot m fuel k = some (r, m') ∧ SameForest m m' := by
  induction h generalizing fuel with
  | @root k c hk hc =>
    obtain ⟨fuel, rfl⟩ : ∃ f', fuel = f' + 1 := ⟨fuel - 1, by omega⟩
    exact ⟨m, by simp [getRoot, hk, hc], .refl m⟩
  | @step k c p r n hk hc hp ih =>
    obtain ⟨fuel, rfl⟩ : ∃ f', fuel = f' + 1 := ⟨fuel - 1, by omega⟩
    obtain ⟨m₁, h₁, hs₁⟩ := ih (show n < fuel by omega)
    refine ⟨_, by simp [getRoot, hk, hc, h₁],
      hs₁.trans (sameForest_compress (x := k) (r := r) ?_ ?_)⟩
    · exact (hs₁.root_iff k r).2 ⟨_, .step hk hc hp⟩
    · rintro rfl
      obtain ⟨c', hc', hc'r⟩ := hp.isRoot
      rw [hk] at hc'; cases hc'; simp_all

theorem mem_keys_of_getRoot {fuel : Nat} {p : Nat × OpClusterMap} (h : getRoot m fuel k = some p) :
    k ∈ m.keys := by
  cases fuel with
  | zero => cases h
  | succ fuel =>
    rw [getRoot] at h
    cases hk : m.find k with
    | none => rw [hk] at h; cases h
    | some c => exact mem_keys_of_find hk

/-- With `fuel = m.length`, `getRoot` of a cluster that has a root returns it. -/
theorem getRoot_of_root (h : Root m k r) :
    ∃ m', getRoot m m.length k = some (r, m') ∧ SameForest m m' :=
  let ⟨_, h⟩ := h; getRoot_spec h h.lt_length

/-- The cluster `a` was merged into `b`: its `mergedInto` link. -/
def Linked (m : OpClusterMap) (a b : Nat) : Prop := ∃ c, m.find a = some c ∧ c.mergedInto = some b

theorem keys_getRoot : ∀ {fuel k r : Nat} {m' : OpClusterMap}, getRoot m fuel k = some (r, m') →
    m'.keys = m.keys
  | 0, _, _, _, h => by cases h
  | fuel + 1, k, r, m', h => by
    simp only [getRoot] at h
    split at h
    · cases h
    split at h
    · cases h; rfl
    split at h
    · cases h
    · cases h
      rw [keys_modify]
      exact keys_getRoot ‹_›

theorem Linked.unique {a b b' : Nat} (h : Linked m a b) (h' : Linked m a b') : b = b' := by
  obtain ⟨c, hc, hb⟩ := h
  obtain ⟨c', hc', hb'⟩ := h'
  rw [hc] at hc'; cases hc'; rw [hb] at hb'; exact Option.some.inj hb'

theorem Linked.not_isRoot {a b : Nat} (h : Linked m a b) : ¬IsRoot m a := fun ⟨c, hc, hn⟩ => by
  obtain ⟨c', hc', hb⟩ := h
  rw [hc] at hc'; cases hc'; rw [hn] at hb; cases hb

/-- **`getRoot` compresses the path.** Whenever `getRoot` of `k` returns, with any map and any
    fuel, it returns the root of `k` and a map with the same forest, in which every cluster on
    the path of `mergedInto` links from `k` but the root is linked straight to the root. -/
theorem getRoot_compresses : ∀ {fuel k r : Nat} {m' : OpClusterMap},
    getRoot m fuel k = some (r, m') →
      Root m k r ∧ SameForest m m' ∧
        ∀ x, Relation.ReflTransGen (Linked m) k x → x = r ∨ Linked m' x r
  | 0, _, _, _, h => by cases h
  | fuel + 1, k, r, m', h => by
    obtain ⟨c, hk⟩ := Option.isSome_iff_exists.1 (find_isSome_iff.2 (mem_keys_of_getRoot h))
    cases hc : c.mergedInto with
    | none =>
      -- `k` is the root: its path is `k` alone
      simp only [getRoot, hk, hc, Option.some.injEq, Prod.mk.injEq] at h
      obtain ⟨rfl, rfl⟩ := h
      refine ⟨⟨0, .root hk hc⟩, .refl m, fun x hx => .inl ?_⟩
      rcases hx.cases_head with rfl | ⟨y, hy, -⟩
      exacts [rfl, absurd ⟨c, hk, hc⟩ hy.not_isRoot]
    | some p =>
      -- `k` is linked to `p`: compress the path from `p`, then point `k` at the root
      have hkp : Linked m k p := ⟨c, hk, hc⟩
      simp only [getRoot, hk, hc] at h
      split at h
      · cases h
      rename_i r₁ m₁ hp
      simp only [Option.some.injEq, Prod.mk.injEq] at h
      obtain ⟨rfl, rfl⟩ := h
      obtain ⟨⟨n, hpr⟩, hs₁, hpath⟩ := getRoot_compresses hp
      have hroot : Root m k r₁ := ⟨_, .step hk hc hpr⟩
      have hkr : k ≠ r₁ := fun e => hkp.not_isRoot (e ▸ hpr.isRoot)
      have hlink : Linked (m₁.modify k fun c => { c with mergedInto := some r₁ }) k r₁ := by
        obtain ⟨c₁, hc₁⟩ := Option.isSome_iff_exists.1
          (find_isSome_iff.2 ((keys_getRoot hp).symm ▸ mem_keys_of_find hk))
        exact ⟨_, by rw [find_modify_self, hc₁]; rfl, rfl⟩
      refine ⟨hroot, hs₁.trans (sameForest_compress ((hs₁.root_iff k r₁).2 hroot) hkr),
        fun x hx => ?_⟩
      rcases hx.cases_head with hkx | ⟨y, hy, hyx⟩
      · subst hkx
        exact .inr hlink
      obtain rfl := hy.unique hkp
      rcases hpath x hyx with rfl | ⟨c₁, hx₁, hc₁⟩
      · exact .inl rfl
      by_cases hxk : x = k
      · subst hxk
        exact .inr hlink
      · exact .inr ⟨c₁, by rw [find_modify_ne hxk, hx₁], hc₁⟩

/-- The chain `0 → 1 → 2` of `mergedInto` links, `2` the root. -/
def chainMap : OpClusterMap :=
  [(0, ⟨[], some 1⟩), (1, ⟨[], some 2⟩), (2, ⟨[0, 1, 2], none⟩)]

/-- `getRoot` of `0` on `chainMap` links `0` and `1` straight to `2`. -/
theorem chainMap_getRoot_compresses :
    getRoot chainMap 3 0 =
      some (2, [(0, ⟨[], some 2⟩), (1, ⟨[], some 2⟩), (2, ⟨[0, 1, 2], none⟩)]) ∧
    Root chainMap 0 2 ∧ SameForest chainMap [(0, ⟨[], some 2⟩), (1, ⟨[], some 2⟩),
      (2, ⟨[0, 1, 2], none⟩)] ∧
    ∀ x, Relation.ReflTransGen (Linked chainMap) 0 x → x = 2 ∨
      Linked [(0, ⟨[], some 2⟩), (1, ⟨[], some 2⟩), (2, ⟨[0, 1, 2], none⟩)] x 2 :=
  have h : getRoot chainMap 3 0 =
      some (2, [(0, ⟨[], some 2⟩), (1, ⟨[], some 2⟩), (2, ⟨[0, 1, 2], none⟩)]) := rfl
  ⟨h, getRoot_compresses h⟩

/-! ## The constructor -/

/-- `op.getResult(0).hasOneUse()`, and the owner of that use is a host op. -/
def usedOnlyByHost (f : Func) (attrName : String) (op : Operation) : Bool :=
  match f.getResultUses op.name 0 with
  | [user] => user.isHostOp attrName
  | _ => false

theorem usedOnlyByHost_iff {f : Func} {attrName : String} {op : Operation} :
    usedOnlyByHost f attrName op = true ↔
      ∃ user, f.getResultUses op.name 0 = [user] ∧ user.isHostOp attrName = true := by
  unfold usedOnlyByHost
  split <;> simp_all

/-- The constructor of `DeviceClusteringAlgoBaseHelper`: a singleton cluster for each
    non-terminator op that is not a host op, except a constant-like op
    (`isMhloConstantLike`) whose result has one use, by a host op. -/
def initClusters (isConstantLike : Operation → Bool) (f : Func) (attrName : String) :
    OpClusterMap :=
  f.body.filterMap fun op =>
    if op.isHostOp attrName then none
    else if isConstantLike op && usedOnlyByHost f attrName op then none
    else some (op.name, ⟨[op.name], none⟩)

/-- The keys of the constructor's map: the non-terminator ops that are not host ops and
    not constant-like ops whose single use is by a host op. -/
theorem mem_keys_initClusters {isConstantLike : Operation → Bool} {f : Func}
    {attrName : String} {k : Nat} :
    k ∈ (initClusters isConstantLike f attrName).keys ↔ ∃ op ∈ f.body, op.name = k ∧
      op.isHostOp attrName = false ∧ ¬(isConstantLike op = true ∧
        ∃ user, f.getResultUses op.name 0 = [user] ∧ user.isHostOp attrName = true) := by
  simp only [OpClusterMap.keys, initClusters, mem_map, mem_filterMap, ← usedOnlyByHost_iff]
  constructor
  · rintro ⟨_, ⟨op, hop, he⟩, rfl⟩
    split at he
    · cases he
    rename_i hh
    split at he
    · cases he
    rename_i hc
    cases he
    exact ⟨op, hop, rfl, by simpa using hh, by simpa using hc⟩
  · rintro ⟨op, hop, rfl, hh, hc⟩
    refine ⟨(op.name, ⟨[op.name], none⟩), ⟨op, hop, ?_⟩, rfl⟩
    rw [if_neg (by simp [hh]), if_neg (by simpa using hc)]

end GraphClustering
