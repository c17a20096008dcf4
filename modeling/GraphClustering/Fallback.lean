/-
  The host ops of the fallback strategy: `insertOpsRecursively` is a depth-first search
  over the defining ops of operands, and `getFunctionMetadatasFallback` seeds it with every
  op of the body that `isHostOp` accepts.

  * `Func.OperandDef u d`: an operand of the top-level op `u` is defined by `d`, the edge
    the search follows (`op->getOperands()`, not the operands of nested ops);
  * `HostReach`: the least set of handles that holds the host ops of the body and is closed
    under `OperandDef`;
  * `ClosedExtension R s s'`: `s'` grows `s`, and every handle it adds satisfies `R` and has
    the defining ops of its operands in `s'`; it composes along a fold;
  * `insertOpsRecursively_spec`: with fuel above the top-level handles not yet visited, a
    call adds `op` and only what `op` reaches, closed: the early return on a visited op
    loses nothing, since a visited op was closed when it was added or is still on the
    stack;
  * `mem_hostOps_iff`: the seed loop computes exactly `HostReach`, which makes it decidable;
  * `getFunctionMetadatasFallback_spec`: the entries of the fallback, `FallbackSplit`.
-/
import Mathlib.Logic.Relation
import GraphClustering.Pass

namespace GraphClustering

open List Relation

/-! ## The operand closure -/

/-- An operand of the top-level op `u` (not of an op nested in it) is defined by the op
    `d`: the edge `insertOpsRecursively` follows. -/
def Func.OperandDef (f : Func) (u d : Nat) : Prop :=
  ∃ v ∈ (f.opOf u).operands, v.getDefiningOp = some d

/-- The host ops of the fallback: the least set of handles that holds every op of the body
    satisfying `isHostOp` and the defining op of every operand of an op in it. -/
inductive HostReach (f : Func) (attrName : String) : Nat → Prop
  | host {o : Operation} : o ∈ f.body → o.isHostOp attrName = true →
      HostReach f attrName o.name
  | operand {u d : Nat} : HostReach f attrName u → f.OperandDef u d → HostReach f attrName d

namespace Func

variable {f : Func}

theorem mem_names_of_operandDef {u d : Nat} (h : f.OperandDef u d) : u ∈ f.names := by
  obtain ⟨v, hv, -⟩ := h
  by_contra hu
  simp [opOf_operands_eq_nil hu] at hv

/-- The top-level handles of `f` outside `s`, with repetition: it bounds the depth of
    `insertOpsRecursively` from the visited set `s`. -/
def unvisited (f : Func) (s : List Nat) : Nat := f.names.countP (· ∉ s)

theorem unvisited_anti {s t : List Nat} (h : s ⊆ t) : f.unvisited t ≤ f.unvisited s :=
  countP_mono_left fun x _ => by simpa using fun hxt hxs => hxt (h hxs)

private theorem countP_lt_of_mem {α : Type} {p q : α → Bool} :
    ∀ {l : List α}, (∀ x ∈ l, q x → p x) → ∀ {a : α}, a ∈ l → p a → q a = false →
      l.countP q < l.countP p
  | [], _, _, ha, _, _ => absurd ha (not_mem_nil _)
  | x :: l, hqp, a, ha, hpa, hqa => by
    have hqp' : ∀ y ∈ l, q y → p y := fun y hy => hqp y (mem_cons_of_mem _ hy)
    have hle : l.countP q ≤ l.countP p := countP_mono_left hqp'
    rw [countP_cons, countP_cons]
    rcases mem_cons.1 ha with rfl | ha
    · simp only [hpa, hqa, if_true, Bool.false_eq_true, if_false]; omega
    · have := countP_lt_of_mem hqp' ha hpa hqa
      have hx : (if q x then 1 else 0) ≤ (if p x then 1 else 0) := by
        have := hqp x (mem_cons_self _ _)
        split_ifs <;> simp_all
      omega

theorem unvisited_append_lt {s : List Nat} {n : Nat} (hn : n ∈ f.names) (hs : n ∉ s) :
    f.unvisited (s ++ [n]) < f.unvisited s :=
  countP_lt_of_mem (fun x _ => by simpa using fun h _ => h) hn (by simpa using hs) (by simp)

theorem unvisited_lt_fuel (s : List Nat) : f.unvisited s < f.walk.length + 1 := by
  have h₁ : f.unvisited s ≤ f.names.length := countP_le_length _
  have h₂ : f.names.length ≤ f.walk.length := by
    simpa [names] using (ops_sublist_walk (f := f)).length_le
  omega

end Func

theorem HostReach.of_reflTransGen {f : Func} {attrName : String} {o : Operation}
    (ho : o ∈ f.body) (hh : o.isHostOp attrName = true) {n : Nat}
    (h : ReflTransGen f.OperandDef o.name n) : HostReach f attrName n := by
  induction h with
  | refl => exact .host ho hh
  | tail _ hd ih => exact ih.operand hd

/-! ## Closed extensions -/

/-- `s'` grows `s`, and every handle it adds satisfies `R` and has the defining ops of its
    operands in `s'`. -/
def Func.ClosedExtension (f : Func) (R : Nat → Prop) (s s' : List Nat) : Prop :=
  s ⊆ s' ∧ ∀ n ∈ s', n ∉ s → R n ∧ ∀ d, f.OperandDef n d → d ∈ s'

namespace Func.ClosedExtension

variable {f : Func} {R : Nat → Prop} {s s₁ s₂ : List Nat}

theorem refl (s : List Nat) : f.ClosedExtension R s s :=
  ⟨Subset.refl s, fun _ h h' => absurd h h'⟩

theorem trans (h₁ : f.ClosedExtension R s s₁) (h₂ : f.ClosedExtension R s₁ s₂) :
    f.ClosedExtension R s s₂ := by
  refine ⟨h₁.1.trans h₂.1, fun n hn hns => ?_⟩
  by_cases hn₁ : n ∈ s₁
  · obtain ⟨hR, hc⟩ := h₁.2 n hn₁ hns
    exact ⟨hR, fun d hd => h₂.1 (hc d hd)⟩
  · exact h₂.2 n hn hn₁

theorem mono {R' : Nat → Prop} (h : f.ClosedExtension R s s₁) (hR : ∀ n, R n → R' n) :
    f.ClosedExtension R' s s₁ :=
  ⟨h.1, fun n hn hns => (h.2 n hn hns).imp (hR n) id⟩

/-- A fold whose every step is a closed extension that puts in the handles `Q x` asks for
    is a closed extension that holds all of them; `P` is what each step needs of its
    accumulator, kept as the accumulator grows. -/
theorem foldl {α : Type} {F : List Nat → α → List Nat} {P : List Nat → Prop}
    {Q : α → Nat → Prop} (hP : ∀ s t, P s → s ⊆ t → P t) :
    ∀ {xs : List α}, (∀ x ∈ xs, ∀ s, P s →
      f.ClosedExtension R s (F s x) ∧ ∀ d, Q x d → d ∈ F s x) →
    ∀ s, P s → f.ClosedExtension R s (xs.foldl F s) ∧ ∀ x ∈ xs, ∀ d, Q x d → d ∈ xs.foldl F s
  | [], _, s, _ => ⟨refl s, by simp⟩
  | x :: xs, hF, s, hs => by
    obtain ⟨h₁, hx⟩ := hF x (mem_cons_self _ _) s hs
    obtain ⟨h₂, hxs⟩ := foldl hP (fun y hy => hF y (mem_cons_of_mem _ hy)) (F s x)
      (hP _ _ hs h₁.1)
    refine ⟨h₁.trans h₂, fun y hy d hd => ?_⟩
    rcases mem_cons.1 hy with rfl | hy
    · exact h₂.1 (hx d hd)
    · exact hxs y hy d hd

end Func.ClosedExtension

/-! ## `insertOpsRecursively` -/

section Insert

variable {f : Func}

theorem insertOpsRecursively_of_mem {fuel op : Nat} {s : List Nat} (h : op ∈ s) :
    insertOpsRecursively f fuel op s = s := by
  cases fuel <;> simp [insertOpsRecursively, h]

/-- **The depth-first search computes the operand closure.** From a visited set `s` with
    fewer unvisited top-level handles than `fuel`, `insertOpsRecursively` adds `op` and only
    handles `op` reaches, and each handle it adds has the defining ops of its operands in
    the result. -/
theorem insertOpsRecursively_spec :
    ∀ (fuel op : Nat) (s : List Nat), f.unvisited s < fuel →
      f.ClosedExtension (ReflTransGen f.OperandDef op) s (insertOpsRecursively f fuel op s) ∧
        op ∈ insertOpsRecursively f fuel op s
  | 0, _, _, h => absurd h (Nat.not_lt_zero _)
  | fuel + 1, op, s, hμ => by
    by_cases hop : op ∈ s
    · rw [insertOpsRecursively_of_mem hop]
      exact ⟨.refl s, hop⟩
    -- each operand's step extends any set holding `s ++ [op]`, within what `op` reaches
    have hstep : ∀ v ∈ (f.opOf op).operands, ∀ t, s ++ [op] ⊆ t →
        f.ClosedExtension (ReflTransGen f.OperandDef op) t (match v.getDefiningOp with
          | some d => insertOpsRecursively f fuel d t | none => t) ∧
        ∀ d, v.getDefiningOp = some d → d ∈ (match v.getDefiningOp with
          | some d => insertOpsRecursively f fuel d t | none => t) := by
      intro v hv t ht
      cases hd : v.getDefiningOp with
      | none => exact ⟨.refl t, by simp⟩
      | some d =>
        have hop' : op ∈ f.names := Func.mem_names_of_operandDef ⟨v, hv, hd⟩
        have hμt : f.unvisited t < fuel :=
          calc f.unvisited t ≤ f.unvisited (s ++ [op]) := Func.unvisited_anti ht
            _ < f.unvisited s := Func.unvisited_append_lt hop' hop
            _ ≤ fuel := by omega
        obtain ⟨hce, hmem⟩ := insertOpsRecursively_spec fuel d t hμt
        exact ⟨hce.mono fun n hn => ReflTransGen.head ⟨v, hv, hd⟩ hn,
          fun d' hd' => by cases hd'; exact hmem⟩
    obtain ⟨hce, hdef⟩ := Func.ClosedExtension.foldl (fun _ _ h h' => h.trans h') hstep
      (s ++ [op]) (Subset.refl _)
    simp only [insertOpsRecursively, hop, if_false]
    refine ⟨⟨(subset_append_left _ _).trans hce.1, fun n hn hns => ?_⟩,
      hce.1 (mem_append_right _ (mem_singleton_self _))⟩
    by_cases hn' : n ∈ s ++ [op]
    · obtain rfl : n = op := by simpa [hns] using hn'
      exact ⟨.refl, fun d ⟨v, hv, hd⟩ => hdef v hv d hd⟩
    · exact hce.2 n hn hn'

end Insert

/-! ## The host ops of the fallback -/

section Host

variable {f : Func} {attrName : String}

/-- **The seed loop computes the host closure.** The handles that `insertOpsRecursively`
    collects from each host op of the body in turn (`hostOps` of
    `getFunctionMetadatasFallback`) are exactly those of `HostReach`. -/
theorem mem_hostOps_iff {n : Nat} :
    n ∈ f.body.foldl (fun s op => if op.isHostOp attrName then
      insertOpsRecursively f (f.walk.length + 1) op.name s else s) [] ↔
    HostReach f attrName n := by
  have hstep : ∀ o ∈ f.body, ∀ s, True →
      f.ClosedExtension (HostReach f attrName) s (if o.isHostOp attrName then
        insertOpsRecursively f (f.walk.length + 1) o.name s else s) ∧
      ∀ d, (o.isHostOp attrName = true ∧ d = o.name) → d ∈ (if o.isHostOp attrName then
        insertOpsRecursively f (f.walk.length + 1) o.name s else s) := by
    intro o ho s _
    by_cases hh : o.isHostOp attrName = true
    · obtain ⟨hce, hmem⟩ := insertOpsRecursively_spec _ o.name s (Func.unvisited_lt_fuel s)
      simp only [hh, if_true]
      exact ⟨hce.mono fun _ => HostReach.of_reflTransGen ho hh, fun d hd => hd.2 ▸ hmem⟩
    · simp only [hh, if_false]
      exact ⟨.refl s, by simp⟩
  obtain ⟨hce, hseed⟩ := Func.ClosedExtension.foldl (fun _ _ _ _ => trivial) hstep [] trivial
  refine ⟨fun h => (hce.2 n h (not_mem_nil n)).1, fun h => ?_⟩
  induction h with
  | host ho hh => exact hseed _ ho _ ⟨hh, rfl⟩
  | operand _ hud ih => exact (hce.2 _ ih (not_mem_nil _)).2 _ hud

/-- The host closure is decided by running the fallback's own search. -/
instance (f : Func) (attrName : String) : DecidablePred (HostReach f attrName) :=
  fun _ => decidable_of_iff _ mem_hostOps_iff

/-- How the fallback splits the body into the ops of its host entries `hostOps` and of its
    device entries `deviceOps`. -/
structure FallbackSplit (f : Func) (attrName : String) (hostOps deviceOps : List Nat) :
    Prop where
  host_sublist : hostOps <+ f.body.map Operation.name
  device_sublist : deviceOps <+ f.body.map Operation.name
  disjoint : List.Disjoint hostOps deviceOps
  perm : hostOps ++ deviceOps ~ f.body.map Operation.name
  mem_host : ∀ n, n ∈ hostOps ↔ n ∈ f.body.map Operation.name ∧ HostReach f attrName n
  no_device_operand : ∀ h ∈ hostOps, ∀ d ∈ deviceOps, ¬f.OperandDef h d
  device_not_host : ∀ n ∈ deviceOps, (f.opOf n).isHostOp attrName = false

/-- The body split by the host closure, in block order, is a `FallbackSplit`. -/
theorem fallbackSplit_filter :
    FallbackSplit f attrName ((f.body.map Operation.name).filter (HostReach f attrName ·))
      ((f.body.map Operation.name).filter (¬HostReach f attrName ·)) where
  host_sublist := filter_sublist _
  device_sublist := filter_sublist _
  disjoint _ h₁ h₂ := (of_decide_eq_true (mem_filter.1 h₂).2) (of_decide_eq_true (mem_filter.1 h₁).2)
  perm := by simpa only [decide_not] using filter_append_perm _ _
  mem_host _ := by simp
  no_device_operand _ hh _ hd hhd :=
    (of_decide_eq_true (mem_filter.1 hd).2) ((of_decide_eq_true (mem_filter.1 hh).2).operand hhd)
  device_not_host n hn := by
    obtain ⟨hb, hr⟩ := mem_filter.1 hn
    refine Bool.eq_false_iff.2 fun hh => of_decide_eq_true hr ?_
    simpa using HostReach.host (Func.opOf_mem_body hb) hh

/-- **The entries of the fallback.** `getFunctionMetadatasFallback` returns `nullopt` only
    when the device ops (the body outside the host closure) are not empty and
    `validateSubGraphFn` rejects them. Otherwise it returns at most one entry for the host,
    then at most one for `device`, whose ops split the body as `FallbackSplit` says: the
    host ops are the body ops in the least set that holds every host op and the defining op
    of each operand of its ops. -/
theorem getFunctionMetadatasFallback_spec (io : ClusterIO) (f : Func) (attrName device : String)
    (dupOutputs : Bool) (validateSubGraphFn : Option (List Nat → Bool)) :
    (getFunctionMetadatasFallback io f attrName device dupOutputs validateSubGraphFn = none →
      (f.body.map Operation.name).filter (¬HostReach f attrName ·) ≠ [] ∧
        rejects validateSubGraphFn
          ((f.body.map Operation.name).filter (¬HostReach f attrName ·)) = true) ∧
    ∀ mds, getFunctionMetadatasFallback io f attrName device dupOutputs validateSubGraphFn =
        some mds →
      ∃ host dev : List FunctionMetadata, mds = host ++ dev ∧ host.length ≤ 1 ∧
        dev.length ≤ 1 ∧ (∀ md ∈ host, md.deviceAttr = "host") ∧
        (∀ md ∈ dev, md.deviceAttr = device) ∧
        FallbackSplit f attrName (host.flatMap FunctionMetadata.ops)
          (dev.flatMap FunctionMetadata.ops) := by
  have key := @mem_hostOps_iff f attrName
  simp only [getFunctionMetadatasFallback]
  generalize List.foldl (fun s op => if op.isHostOp attrName = true then
    insertOpsRecursively f (f.walk.length + 1) op.name s else s) [] f.body = H at key ⊢
  have hhost : (f.body.map Operation.name).filter (· ∈ H) =
      (f.body.map Operation.name).filter (HostReach f attrName ·) :=
    filter_congr fun n _ => by simp [key]
  have hdev : (f.body.map Operation.name).filter (· ∉ H) =
      (f.body.map Operation.name).filter (¬HostReach f attrName ·) :=
    filter_congr fun n _ => by simp [key]
  have hH0 : ¬H ≠ [] → (f.body.map Operation.name).filter (HostReach f attrName ·) = [] :=
    fun hH => filter_eq_nil_iff.2 fun n _ hn => by
      simpa [not_not.1 hH] using key.2 (of_decide_eq_true hn)
  have hsplit : FallbackSplit f attrName _ _ := fallbackSplit_filter
  rw [hhost, hdev]
  generalize (if dupOutputs then some (retStats f) else none) = stats
  refine ⟨fun h => ?_, fun mds h => ?_⟩
  · split_ifs at h with hD hr
    exact ⟨hD, hr⟩
  split_ifs at h with hD hr hH hH <;> cases h
  · exact ⟨_, _, rfl, by simp, by simp, by simp, by simp, by simpa using hsplit⟩
  · exact ⟨_, _, rfl, by simp, by simp, by simp, by simp, by simpa [hH0 hH] using hsplit⟩
  all_goals rw [not_not.1 hD] at hsplit
  · exact ⟨_, [], (append_nil _).symm, by simp, by simp, by simp, by simp, by simpa using hsplit⟩
  · exact ⟨[], [], rfl, by simp, by simp, by simp, by simp, by simpa [hH0 hH] using hsplit⟩

/-- On `fallbackFunc`, the host ops `h` and `h2` form the host entry and `d`, which uses
    `h`, the device entry. -/
theorem fallbackFunc_fallback_split :
    getFunctionMetadatasFallback (clusterIOSpec fallbackFunc) fallbackFunc "device" "cuda" false
        none =
      some [⟨"host", [0, 2], [], [.result 0 0, .result 2 0]⟩,
        ⟨"cuda", [1], [.result 0 0], [.result 1 0]⟩] ∧
    FallbackSplit fallbackFunc "device" [0, 2] [1] := by
  have h : getFunctionMetadatasFallback (clusterIOSpec fallbackFunc) fallbackFunc "device" "cuda"
      false none = some [⟨"host", [0, 2], [], [.result 0 0, .result 2 0]⟩,
        ⟨"cuda", [1], [.result 0 0], [.result 1 0]⟩] := by decide
  obtain ⟨host, dev, hmds, hh, hd, -, -, hs⟩ :=
    (getFunctionMetadatasFallback_spec (clusterIOSpec fallbackFunc) fallbackFunc "device" "cuda"
      false none).2 _ h
  refine ⟨h, ?_⟩
  rcases host with _ | ⟨a, _ | ⟨_, _⟩⟩ <;> rcases dev with _ | ⟨b, _ | ⟨_, _⟩⟩ <;>
    simp at hh hd hmds
  obtain ⟨rfl, rfl⟩ := hmds
  simpa using hs

end Host

end GraphClustering
