/-
  The IR read by `GraphClusteringByDevice.cpp`: SSA values, operations with nested
  regions, and a `func.func` whose body is one entry block.

  * `Operation` keeps what the pass reads of an op: its handle `name` (the
    `Operation *`), its operands, its string attributes and the ops of its regions;
  * `isHostOp`, `anyDefIn` and `anyUseIn` are the helpers of the source, and
    `isHostOp_iff`, `anyDefIn_iff`, `anyUseIn_iff` say them with `walk` and with the
    relation `Uses` between the top-level ops of the block;
  * `DepOrdered f l`: every operand of an op of `l` defined by an op of `l` is defined
    earlier in `l` (the SSA order of a block).
-/
import Mathlib.Data.List.Infix
import Mathlib.Data.List.Nodup

namespace GraphClustering

open List

/-! ## Values and operations -/

/-- An SSA value: result `i` of the operation with handle `op`, or argument `i` of the
    entry block. -/
inductive Value where
  | result (op i : Nat)
  | arg (i : Nat)
  deriving DecidableEq, Repr

/-- `Value::getDefiningOp`: none for a block argument. -/
def Value.getDefiningOp : Value → Option Nat
  | .result op _ => some op
  | .arg _ => none

/-- An operation: its handle, its operands, its attributes (string-valued here), and the
    operations of its regions, all blocks of all regions in order. -/
inductive Operation where
  | mk (name : Nat) (operands : List Value) (attrs : List (String × String))
      (regions : List Operation)
  deriving Repr

namespace Operation

def name : Operation → Nat
  | mk n _ _ _ => n

def operands : Operation → List Value
  | mk _ vs _ _ => vs

def attrs : Operation → List (String × String)
  | mk _ _ as _ => as

mutual
/-- The operation followed by every operation nested in it, outermost first. -/
def walk : Operation → List Operation
  | op@(mk _ _ _ rs) => op :: walkList rs

def walkList : List Operation → List Operation
  | [] => []
  | op :: ops => walk op ++ walkList ops
end

/-- The operands of the operation and of every operation nested in it. -/
def deepOperands (op : Operation) : List Value := op.walk.flatMap operands

/-- The op carries the attribute `attrName` with the value `"host"` (`DEVICE_ATTR_HOST`). -/
def hasHostAttr (attrName : String) (op : Operation) : Bool :=
  op.attrs.lookup attrName == some "host"

mutual
/-- `isHostOp`: an op nested in the op, or the op itself, is marked `"host"`. -/
def isHostOp (attrName : String) : Operation → Bool
  | op@(mk _ _ _ rs) => isHostOpList attrName rs || hasHostAttr attrName op

def isHostOpList (attrName : String) : List Operation → Bool
  | [] => false
  | op :: ops => isHostOp attrName op || isHostOpList attrName ops
end

/-- `operations.count(v.getDefiningOp())`: `v` is a result of an op of `operations`. -/
def definedIn (operations : List Nat) (v : Value) : Bool :=
  match v.getDefiningOp with
  | some d => operations.contains d
  | none => false

mutual
/-- `ActiveDeviceCluster::anyDefIn`: an operand of an op nested in `op`, or of `op`
    itself, is defined by an op of `operations`. -/
def anyDefIn (operations : List Nat) : Operation → Bool
  | mk _ vs _ rs => anyDefInList operations rs || vs.any (definedIn operations)

def anyDefInList (operations : List Nat) : List Operation → Bool
  | [] => false
  | op :: ops => anyDefIn operations op || anyDefInList operations ops
end

/-- `Operation::isAncestor`: `other` is `op` or nested in it. -/
def isAncestor (op other : Operation) : Bool := op.walk.any (·.name == other.name)

@[simp] theorem name_mk (n vs as rs) : (mk n vs as rs).name = n := rfl
@[simp] theorem operands_mk (n vs as rs) : (mk n vs as rs).operands = vs := rfl
@[simp] theorem attrs_mk (n vs as rs) : (mk n vs as rs).attrs = as := rfl

theorem walk_mk (n vs as rs) : (mk n vs as rs).walk = mk n vs as rs :: walkList rs := by
  simp [walk]

@[simp] theorem mem_walk_self (op : Operation) : op ∈ op.walk := by
  cases op; simp [walk_mk]

@[simp] theorem walkList_nil : walkList [] = [] := by simp [walkList]

@[simp] theorem walkList_cons (op : Operation) (ops : List Operation) :
    walkList (op :: ops) = op.walk ++ walkList ops := by simp [walkList]

theorem walkList_eq_flatMap (ops : List Operation) : walkList ops = ops.flatMap walk := by
  induction ops with
  | nil => simp
  | cons op ops ih => simp [ih]

theorem walkList_append (l₁ l₂ : List Operation) :
    walkList (l₁ ++ l₂) = walkList l₁ ++ walkList l₂ := by
  simp [walkList_eq_flatMap]

mutual
theorem isHostOp_iff (a : String) :
    ∀ op : Operation, isHostOp a op = true ↔ ∃ w ∈ op.walk, hasHostAttr a w = true
  | mk n vs as rs => by
    rw [isHostOp, walk_mk, Bool.or_eq_true, isHostOpList_iff a rs]
    simp only [mem_cons, exists_eq_or_imp]
    exact or_comm
theorem isHostOpList_iff (a : String) :
    ∀ ops : List Operation, isHostOpList a ops = true ↔ ∃ w ∈ walkList ops, hasHostAttr a w = true
  | [] => by simp [isHostOpList]
  | op :: ops => by
    rw [isHostOpList, Bool.or_eq_true, isHostOp_iff a op, isHostOpList_iff a ops]
    simp only [walkList_cons, mem_append, or_and_right, exists_or]
end

theorem definedIn_iff (S : List Nat) (v : Value) :
    definedIn S v = true ↔ ∃ d ∈ S, v.getDefiningOp = some d := by
  unfold definedIn
  split <;> simp_all

mutual
theorem anyDefIn_walk (S : List Nat) :
    ∀ op : Operation, anyDefIn S op = true ↔ ∃ w ∈ op.walk, ∃ v ∈ w.operands, definedIn S v
  | mk n vs as rs => by
    rw [anyDefIn, walk_mk, Bool.or_eq_true, anyDefInList_walk S rs]
    simp only [List.any_eq_true, mem_cons, exists_eq_or_imp, operands_mk]
    exact or_comm
theorem anyDefInList_walk (S : List Nat) :
    ∀ ops : List Operation,
      anyDefInList S ops = true ↔ ∃ w ∈ walkList ops, ∃ v ∈ w.operands, definedIn S v
  | [] => by simp [anyDefInList]
  | op :: ops => by
    rw [anyDefInList, Bool.or_eq_true, anyDefIn_walk S op, anyDefInList_walk S ops]
    simp only [walkList_cons, mem_append, or_and_right, exists_or]
end

theorem mem_deepOperands {op : Operation} {v : Value} :
    v ∈ op.deepOperands ↔ ∃ w ∈ op.walk, v ∈ w.operands := by
  simp [deepOperands]

theorem anyDefIn_iff (S : List Nat) (op : Operation) :
    anyDefIn S op = true ↔ ∃ v ∈ op.deepOperands, ∃ d ∈ S, v.getDefiningOp = some d := by
  rw [anyDefIn_walk]
  simp only [mem_deepOperands, definedIn_iff]
  constructor
  · rintro ⟨w, hw, v, hv, h⟩; exact ⟨v, ⟨w, hw, hv⟩, h⟩
  · rintro ⟨v, ⟨w, hw, hv⟩, h⟩; exact ⟨w, hw, v, hv, h⟩

theorem mem_walk_operands {op w : Operation} {v : Value} (hw : w ∈ op.walk)
    (hv : v ∈ w.operands) : v ∈ op.deepOperands :=
  mem_deepOperands.2 ⟨w, hw, hv⟩

end Operation

/-! ## Functions -/

/-- A `func.func` whose body is one entry block: `body` is `front().without_terminator()`
    and `terminator` is `front().back()`. -/
structure Func where
  symName : String
  body : List Operation
  terminator : Operation

namespace Func

variable (f : Func)

/-- The top-level operations of the entry block, terminator last. -/
def ops : List Operation := f.body ++ [f.terminator]

/-- The handles of the top-level operations, in block order. -/
def names : List Nat := f.ops.map Operation.name

/-- Every operation of the function, nested ones included. -/
def walk : List Operation := Operation.walkList f.ops

/-- The top-level operation with handle `n` (an op with no operands if there is none). -/
def opOf (n : Nat) : Operation := (f.ops.find? (·.name == n)).getD (.mk n [] [] [])

/-- The owner of each operand of the function that satisfies `p`, one entry per operand. -/
def useOwners (p : Value → Bool) : List Operation :=
  f.walk.flatMap fun w => (w.operands.filter p).map fun _ => w

/-- `Operation::getUses` of the op with handle `n`: the owner of each use of one of its
    results. -/
def getUses (n : Nat) : List Operation := f.useOwners (·.getDefiningOp == some n)

/-- The uses of result `i` of the op with handle `n` (`getResult(i).getUses()`). -/
def getResultUses (n i : Nat) : List Operation := f.useOwners (· == .result n i)

/-- Distinct operations have distinct handles. -/
def NamesNodup : Prop := (f.walk.map Operation.name).Nodup

/-- The top-level op `u`, or an op nested in it, has an operand defined by the op `d`. -/
def Uses (u d : Nat) : Prop := ∃ v ∈ (f.opOf u).deepOperands, v.getDefiningOp = some d

variable {f}

@[simp] theorem opOf_name (n : Nat) : (f.opOf n).name = n := by
  unfold opOf
  cases h : f.ops.find? (·.name == n) with
  | none => rfl
  | some o => simpa using List.find?_some h

theorem opOf_mem {n : Nat} (h : n ∈ f.names) : f.opOf n ∈ f.ops := by
  obtain ⟨o, ho, rfl⟩ := List.mem_map.1 h
  unfold opOf
  cases h' : f.ops.find? (·.name == o.name) with
  | none => exact absurd (List.find?_eq_none.1 h' o ho) (by simp)
  | some o' => exact List.mem_of_find?_eq_some h'

/-- `opOf` of a handle that is not a top-level op of `f`: an op with nothing in it. -/
theorem opOf_of_not_mem {n : Nat} (h : n ∉ f.names) : f.opOf n = .mk n [] [] [] := by
  have : f.ops.find? (·.name == n) = none :=
    find?_eq_none.2 fun o ho he => h (mem_map.2 ⟨o, ho, by simpa using he⟩)
  simp [opOf, this]

/-- An op that is not a top-level op of `f` has no operands as `opOf` sees it. -/
theorem opOf_operands_eq_nil {n : Nat} (h : n ∉ f.names) : (f.opOf n).operands = [] := by
  rw [opOf_of_not_mem h]; rfl

/-- An op that uses a value is a top-level op of `f`. -/
theorem mem_names_of_uses {u d : Nat} (h : f.Uses u d) : u ∈ f.names := by
  by_contra hu
  obtain ⟨v, hv, -⟩ := h
  simp [opOf_of_not_mem hu, Operation.deepOperands, Operation.walk_mk] at hv

/-- The first op of the body named `n` is the op `opOf` finds. -/
theorem opOf_mem_body {n : Nat} (h : n ∈ f.body.map Operation.name) : f.opOf n ∈ f.body := by
  obtain ⟨o, ho, rfl⟩ := mem_map.1 h
  obtain ⟨x, hx⟩ := Option.isSome_iff_exists.1
    (find?_isSome.2 ⟨o, ho, by simp⟩ : (f.body.find? (·.name == o.name)).isSome)
  simp [opOf, ops, find?_append, hx, mem_of_find?_eq_some hx]

theorem walk_subset {o : Operation} (h : o ∈ f.ops) : o.walk ⊆ f.walk := by
  intro w hw
  simp only [walk, Operation.walkList_eq_flatMap, List.mem_flatMap]
  exact ⟨o, h, hw⟩

theorem ops_subset_walk : f.ops ⊆ f.walk := fun o h => walk_subset h (Operation.mem_walk_self o)

/-- The top-level ops come first among their own walks, so they form a sublist of the walk. -/
theorem ops_sublist_walk : f.ops <+ f.walk := by
  simp only [walk, Operation.walkList_eq_flatMap]
  induction f.ops with
  | nil => simp
  | cons o os ih =>
    simp only [List.flatMap_cons]
    rw [← List.singleton_append]
    refine List.Sublist.append ?_ ih
    rw [Operation.walk.eq_def]; split; simp

theorem names_nodup (hf : f.NamesNodup) : f.names.Nodup :=
  hf.sublist (ops_sublist_walk.map _)

theorem eq_of_name_eq (hf : f.NamesNodup) {w w' : Operation} (hw : w ∈ f.walk)
    (hw' : w' ∈ f.walk) (h : w.name = w'.name) : w = w' :=
  List.inj_on_of_nodup_map hf hw hw' h

theorem mem_getUses {n : Nat} {w : Operation} :
    w ∈ f.getUses n ↔ w ∈ f.walk ∧ ∃ v ∈ w.operands, v.getDefiningOp = some n := by
  simp only [getUses, useOwners, List.mem_flatMap, List.mem_map, List.mem_filter, beq_iff_eq]
  constructor
  · rintro ⟨w', hw', v, ⟨hv, hd⟩, rfl⟩; exact ⟨hw', v, hv, hd⟩
  · rintro ⟨hw, v, hv, hd⟩; exact ⟨w, hw, v, ⟨hv, hd⟩, rfl⟩

end Func

/-- `ActiveDeviceCluster::anyUseIn`: some use of a result of `op` has an owner nested in
    an op of `operations`, or is an op of `operations`. -/
def anyUseIn (f : Func) (op : Nat) (operations : List Nat) : Bool :=
  (f.getUses op).any fun owner =>
    operations.any (fun o => (f.opOf o).isAncestor owner) || operations.contains owner.name

theorem anyDefIn_opOf_iff (f : Func) (S : List Nat) (u : Nat) :
    (f.opOf u).anyDefIn S = true ↔ ∃ d ∈ S, f.Uses u d := by
  rw [Operation.anyDefIn_iff]
  constructor
  · rintro ⟨v, hv, d, hd, h⟩; exact ⟨d, hd, v, hv, h⟩
  · rintro ⟨d, hd, v, hv, h⟩; exact ⟨v, hv, d, hd, h⟩

theorem anyUseIn_iff {f : Func} (hf : f.NamesNodup) {S : List Nat} (hS : ∀ o ∈ S, o ∈ f.names)
    (d : Nat) : anyUseIn f d S = true ↔ ∃ s ∈ S, f.Uses s d := by
  simp only [anyUseIn, List.any_eq_true, Bool.or_eq_true, List.contains, List.elem_eq_mem,
    decide_eq_true_eq, Func.mem_getUses]
  constructor
  · rintro ⟨w, ⟨hw, v, hv, hd⟩, ⟨s, hs, ha⟩ | hname⟩
    · obtain ⟨w', hw', hn⟩ := List.any_eq_true.1 ha
      have : w' = w := Func.eq_of_name_eq hf (Func.walk_subset (Func.opOf_mem (hS s hs)) hw') hw
        (by simpa using hn)
      exact ⟨s, hs, v, Operation.mem_walk_operands (this ▸ hw') hv, hd⟩
    · have hmem := Func.opOf_mem (hS _ hname)
      have : f.opOf w.name = w :=
        Func.eq_of_name_eq hf (Func.ops_subset_walk hmem) hw (Func.opOf_name _)
      refine ⟨w.name, hname, v, ?_, hd⟩
      rw [this]; exact Operation.mem_walk_operands (Operation.mem_walk_self w) hv
  · rintro ⟨s, hs, v, hv, hd⟩
    obtain ⟨w, hw, hvw⟩ := Operation.mem_deepOperands.1 hv
    refine ⟨w, ⟨Func.walk_subset (Func.opOf_mem (hS s hs)) hw, v, hvw, hd⟩, Or.inl ⟨s, hs, ?_⟩⟩
    exact List.any_eq_true.2 ⟨w, hw, by simp⟩

end GraphClustering
