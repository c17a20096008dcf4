/-
  The entry block as a list of op handles, and the primitives the merge uses on it:
  `isBeforeInBlock`, the range `between` two ops, `moveBefore` and `moveAfter`.

  * `Before l a b`: `a` comes before `b` in `l` (`[a, b] <+ l`);
  * `DepOrdered f l`: every operand of an op of `l` that is defined by an op of `l` is
    defined earlier in `l`;
  * `foldl_moveBefore` and `foldl_moveAfter`: the block after the two loops of
    `tryMergeInto` that move the ops of `moveUp` and of `moveDown`;
  * `infix_split` and `infix_of_disjoint_middle`: how the contiguous op lists of
    disjoint clusters sit in the block.
-/
import Mathlib.Data.List.Perm.Subperm
import GraphClustering.IR

namespace GraphClustering

open List

variable {α : Type}

/-! ## Order in a block -/

/-- `a` comes before `b` in `l`. -/
def Before (l : List α) (a b : α) : Prop := [a, b] <+ l

instance [DecidableEq α] (l : List α) (a b : α) : Decidable (Before l a b) :=
  inferInstanceAs (Decidable ([a, b] <+ l))

theorem Before.mono {l l' : List α} {a b : α} (h : l <+ l') (hb : Before l a b) :
    Before l' a b :=
  Sublist.trans hb h

theorem before_iff {l : List α} {a b : α} :
    Before l a b ↔ ∃ l₁ l₂, l = l₁ ++ l₂ ∧ a ∈ l₁ ∧ b ∈ l₂ := by
  constructor
  · intro h
    obtain ⟨l₁, l₂, rfl, h₁, h₂⟩ := append_sublist_iff.1 (show [a] ++ [b] <+ l from h)
    exact ⟨l₁, l₂, rfl, singleton_sublist.1 h₁, singleton_sublist.1 h₂⟩
  · rintro ⟨l₁, l₂, rfl, h₁, h₂⟩
    exact (singleton_sublist.2 h₁).append (singleton_sublist.2 h₂)

theorem before_append {l₁ l₂ : List α} {a b : α} (ha : a ∈ l₁) (hb : b ∈ l₂) :
    Before (l₁ ++ l₂) a b :=
  before_iff.2 ⟨l₁, l₂, rfl, ha, hb⟩

theorem Before.mem_left {l : List α} {a b : α} (h : Before l a b) : a ∈ l :=
  h.subset (mem_cons_self a _)

theorem Before.mem_right {l : List α} {a b : α} (h : Before l a b) : b ∈ l :=
  h.subset (by simp)

theorem before_cons_iff {x : α} {l : List α} {a b : α} :
    Before (x :: l) a b ↔ Before l a b ∨ (a = x ∧ b ∈ l) := by
  unfold Before
  rw [sublist_cons_iff]
  simp only [cons.injEq, exists_eq_right_right', singleton_sublist]
  constructor
  · rintro (h | ⟨r, ⟨rfl, rfl⟩, h⟩) <;> simp_all
  · rintro (h | ⟨rfl, h⟩) <;> simp_all

theorem Before.not_swap {l : List α} {a b : α} (hl : l.Nodup) (h : Before l a b) :
    ¬Before l b a := by
  induction l with
  | nil => exact fun _ => by simpa [Before] using h.mem_left
  | cons x l ih =>
    rw [nodup_cons] at hl
    rw [before_cons_iff] at h ⊢
    rintro (h' | ⟨rfl, ha⟩)
    · rcases h with h | ⟨rfl, -⟩
      · exact ih hl.2 h h'
      · exact hl.1 h'.mem_right
    · rcases h with h | ⟨rfl, -⟩
      · exact hl.1 h.mem_right
      · exact hl.1 ha

theorem Before.ne {l : List α} {a b : α} (hl : l.Nodup) (h : Before l a b) : a ≠ b := by
  rintro rfl; exact h.not_swap hl h

theorem Before.trans {l : List α} {a b c : α} (hl : l.Nodup) (h₁ : Before l a b)
    (h₂ : Before l b c) : Before l a c := by
  induction l with
  | nil => exact absurd h₁.mem_left (not_mem_nil _)
  | cons x l ih =>
    rw [nodup_cons] at hl
    rw [before_cons_iff] at h₁ h₂ ⊢
    rcases h₁ with h₁ | ⟨rfl, hb⟩ <;> rcases h₂ with h₂ | ⟨rfl, -⟩
    · exact .inl (ih hl.2 h₁ h₂)
    · exact absurd h₁.mem_right hl.1
    · exact .inr ⟨rfl, h₂.mem_right⟩
    · exact absurd hb hl.1

theorem before_total {l : List α} {a b : α} (ha : a ∈ l) (hb : b ∈ l) (hne : a ≠ b) :
    Before l a b ∨ Before l b a := by
  induction l with
  | nil => simp at ha
  | cons x l ih =>
    simp only [before_cons_iff]
    rcases mem_cons.1 ha with rfl | ha' <;> rcases mem_cons.1 hb with rfl | hb'
    · exact absurd rfl hne
    · exact Or.inl (Or.inr ⟨rfl, hb'⟩)
    · exact Or.inr (Or.inr ⟨rfl, ha'⟩)
    · exact (ih ha' hb').imp Or.inl Or.inl

/-! ## Contiguous lists -/

theorem infix_of_disjoint_middle {C A B D : List α} (h : C <:+: A ++ (B ++ D)) (hB : B ≠ [])
    (hdisj : ∀ x ∈ C, x ∉ B) : C <:+: A ∨ C <:+: D := by
  obtain ⟨s, t, h⟩ := h
  rcases append_eq_append_iff.1 h with ⟨a₁, rfl, -⟩ | ⟨c₁, hsC, hBD⟩
  · exact Or.inl ⟨s, a₁, rfl⟩
  rcases append_eq_append_iff.1 hsC with ⟨a₁, rfl, rfl⟩ | ⟨c₂, rfl, rfl⟩
  · cases c₁ with
    | nil => exact Or.inl ⟨s, [], by simp⟩
    | cons y c₁ =>
      obtain ⟨b, B, rfl⟩ := exists_cons_of_ne_nil hB
      obtain ⟨rfl, -⟩ := cons.inj hBD
      exact absurd (mem_cons_self _ _) (hdisj b (by simp))
  · rw [append_assoc] at hBD
    rcases append_eq_append_iff.1 hBD with ⟨a₁, -, rfl⟩ | ⟨c₃, hB', hCt⟩
    · exact Or.inr ⟨a₁, t, by simp⟩
    · cases c₃ with
      | nil => exact Or.inr ⟨[], t, by simpa using hCt⟩
      | cons z c₃ =>
        cases C with
        | nil => exact Or.inl nil_infix
        | cons w C =>
          obtain ⟨rfl, -⟩ := cons.inj hCt
          exact absurd (hB' ▸ mem_append_right _ (mem_cons_self w c₃)) (hdisj w (by simp))

/-- Two disjoint non-empty contiguous lists of a list: one of them comes first, with a
    (possibly empty) gap before the other. -/
theorem infix_split {X Y l : List α} (hX : X <:+: l) (hY : Y <:+: l) (hXne : X ≠ [])
    (hdisj : ∀ x ∈ Y, x ∉ X) :
    (∃ P G S, l = P ++ X ++ G ++ Y ++ S) ∨ (∃ P G S, l = P ++ Y ++ G ++ X ++ S) := by
  obtain ⟨s, t, rfl⟩ := hX
  rcases infix_of_disjoint_middle (by simpa using hY) hXne hdisj with ⟨P, G, rfl⟩ | ⟨G, S, rfl⟩
  · exact Or.inr ⟨P, G, t, by simp⟩
  · exact Or.inl ⟨s, G, S, by simp⟩

theorem infix_of_sublist_of_subset {C G U : List α} (hC : C <:+: G) (hU : U <+ G)
    (hsub : C ⊆ U) (hG : G.Nodup) : C <:+: U := by
  obtain ⟨s, t, rfl⟩ := hC
  obtain ⟨U₁₂, U₃, rfl, h₁₂, h₃⟩ := sublist_append_iff.1 hU
  obtain ⟨U₁, U₂, rfl, h₁, h₂⟩ := sublist_append_iff.1 h₁₂
  have hnd := hG
  rw [nodup_append, nodup_append] at hnd
  have hC₂ : C ⊆ U₂ := by
    intro x hx
    rcases mem_append.1 (hsub hx) with h | h
    · rcases mem_append.1 h with h | h
      · exact (hnd.1.2.2 (h₁.subset h) hx).elim
      · exact h
    · exact (hnd.2.2 (mem_append_right _ hx) (h₃.subset h)).elim
  have : U₂ = C := h₂.eq_of_length
    (le_antisymm h₂.length_le (List.Nodup.subperm hnd.1.2.1 hC₂).length_le)
  subst this
  exact ⟨U₁, U₃, rfl⟩

theorem before_of_mem_split {s C t : List α} {x c : α} (hx : x ∈ s) (hc : c ∈ C) :
    Before (s ++ C ++ t) x c :=
  (before_append hx (mem_append_left t hc)).mono (by simp)

/-- Every op between two ops of a contiguous list belongs to it. -/
theorem infix_mem_of_before {C L : List α} (hC : C <:+: L) (hL : L.Nodup) {a b o : α}
    (ha : a ∈ C) (hb : b ∈ C) (hao : Before L a o) (hob : Before L o b) : o ∈ C := by
  obtain ⟨s, t, rfl⟩ := hC
  rcases mem_append.1 hao.mem_right with ho | ho
  · rcases mem_append.1 ho with ho | ho
    · exact absurd hao ((before_of_mem_split ho ha).not_swap hL)
    · exact ho
  · have : Before (s ++ C ++ t) b o := (before_append (mem_append_right s hb) ho)
    exact absurd hob (this.not_swap hL)

/-- An op outside a contiguous list that comes before one of its ops comes before all. -/
theorem infix_before_all {C L : List α} (hC : C <:+: L) (hL : L.Nodup) {x o : α}
    (hx : x ∉ C) (ho : o ∈ C) (h : Before L x o) : ∀ c ∈ C, Before L x c := by
  obtain ⟨s, t, rfl⟩ := hC
  rcases mem_append.1 h.mem_left with hx' | hx'
  · rcases mem_append.1 hx' with hx' | hx'
    · exact fun c hc => before_of_mem_split hx' hc
    · exact absurd hx' hx
  · exact absurd h ((before_append (mem_append_right s ho) hx').not_swap hL)

/-- An op outside a contiguous list that comes after one of its ops comes after all. -/
theorem infix_all_before {C L : List α} (hC : C <:+: L) (hL : L.Nodup) {y o : α}
    (hy : y ∉ C) (ho : o ∈ C) (h : Before L o y) : ∀ c ∈ C, Before L c y := by
  obtain ⟨s, t, rfl⟩ := hC
  rcases mem_append.1 h.mem_right with hy' | hy'
  · rcases mem_append.1 hy' with hy' | hy'
    · exact absurd h ((before_of_mem_split hy' ho).not_swap hL)
    · exact absurd hy' hy
  · exact fun c hc => before_append (mem_append_right s hc) hy'

theorem sublist_of_subset_of_sublist_append {l s t : List α} (hl : l <+ s ++ t)
    (hsub : l ⊆ s) (hst : (s ++ t).Nodup) : l <+ s := by
  obtain ⟨l₁, l₂, rfl, h₁, h₂⟩ := sublist_append_iff.1 hl
  cases l₂ with
  | nil => simpa using h₁
  | cons y l₂ =>
    exact ((nodup_append.1 hst).2.2 (hsub (by simp)) (h₂.subset (mem_cons_self y l₂))).elim

/-- A sublist all of whose elements come before a contiguous list extends by it. -/
theorem sublist_append_infix {l C L : List α} (hl : l <+ L) (hC : C <:+: L) (hL : L.Nodup)
    (h : ∀ x ∈ l, ∀ c ∈ C, Before L x c) : l ++ C <+ L := by
  cases C with
  | nil => simpa using hl
  | cons c C =>
    obtain ⟨s, t, rfl⟩ := hC
    have hs : l ⊆ s := by
      intro x hx
      have hxc := h x hx c (mem_cons_self c C)
      rcases mem_append.1 hxc.mem_left with hx' | hx'
      · rcases mem_append.1 hx' with hx' | hx'
        · exact hx'
        · exact ((h x hx x hx').ne hL rfl).elim
      · exact absurd hxc ((before_append (mem_append_right s (mem_cons_self c C)) hx').not_swap hL)
    have := sublist_of_subset_of_sublist_append (by simpa using hl) hs (by simpa using hL)
    simpa using this.append (sublist_append_left (c :: C) t)

theorem before_append_iff {A B : List α} {a b : α} :
    Before (A ++ B) a b ↔ Before A a b ∨ Before B a b ∨ (a ∈ A ∧ b ∈ B) := by
  unfold Before
  rw [sublist_append_iff]
  constructor
  · rintro ⟨l₁, l₂, he, h₁, h₂⟩
    match l₁, l₂, he with
    | [], _, rfl => exact Or.inr (Or.inl h₂)
    | [_], [_], he => simp at he; obtain ⟨rfl, rfl⟩ := he; simp_all
    | [_, _], [], he => simp at he; obtain ⟨rfl, rfl⟩ := he; exact Or.inl h₁
  · rintro (h | h | ⟨ha, hb⟩)
    · exact ⟨[a, b], [], by simp, h, nil_sublist _⟩
    · exact ⟨[], [a, b], by simp, nil_sublist _, h⟩
    · exact ⟨[a], [b], rfl, singleton_sublist.2 ha, singleton_sublist.2 hb⟩

theorem before_reverse_iff {l : List α} {a b : α} : Before l.reverse a b ↔ Before l b a := by
  unfold Before
  rw [← reverse_sublist, reverse_reverse]
  simp

theorem Before.of_sublist {l L : List α} (hl : l <+ L) (hL : L.Nodup) {a b : α} (ha : a ∈ l)
    (hb : b ∈ l) (h : Before L a b) : Before l a b := by
  rcases before_total ha hb (h.ne hL) with h' | h'
  · exact h'
  · exact absurd h ((h'.mono hl).not_swap hL)

theorem infix_of_middle (P A G B S : List α) : G <:+: P ++ A ++ G ++ B ++ S :=
  ⟨P ++ A, B ++ S, by simp⟩

theorem before_middle {P A G B S : List α} {a b : α} (ha : a ∈ A) (hb : b ∈ B) :
    Before (P ++ A ++ G ++ B ++ S) a b := by
  simpa using before_append (mem_append_right P ha) (mem_append_left S (mem_append_right G hb))

theorem not_mem_of_nodup_middle {L₁ L₂ L₃ : List α} (h : (L₁ ++ L₂ ++ L₃).Nodup) {x : α}
    (hx : x ∈ L₂) : x ∉ L₁ ∧ x ∉ L₃ :=
  ⟨fun h₁ => disjoint_of_nodup_append (nodup_append.1 h).1 h₁ hx,
    fun h₃ => disjoint_of_nodup_append h (mem_append_right _ hx) h₃⟩

/-- Moving `U ⊆ G` above `A` and `D ⊆ G` below `B`, where `G` lies between `A` and `B`,
    keeps the order of two ops unless one of `A` or of `D` came before one of `U`, or one
    of `D` before one of `B`. -/
theorem Before.of_moved {P A G B S U D : List α} (hnd : (P ++ A ++ G ++ B ++ S).Nodup)
    (hU : U <+ G) (hD : D <+ G) (hG : ∀ x ∈ G, x ∈ U ∨ x ∈ D) {x y : α}
    (h : Before (P ++ A ++ G ++ B ++ S) x y) (hAU : ¬(x ∈ A ∧ y ∈ U))
    (hDU : ¬(x ∈ D ∧ y ∈ U)) (hDB : ¬(x ∈ D ∧ y ∈ B)) :
    Before (P ++ U ++ A ++ B ++ D ++ S) x y := by
  have hGnd : G.Nodup := (nodup_append.1 (nodup_append.1 hnd).1).1 |> nodup_append.1 |>.2.1
  simp only [append_assoc, before_append_iff, mem_append] at h ⊢
  rcases h with h | (h | (h | (h | h | ⟨hx, hy⟩) | ⟨hx, hy⟩) | ⟨hx, hy⟩) | ⟨hx, hy⟩
  · simp [h]
  · simp [h]
  · rcases hG y h.mem_right with hy | hy <;> rcases hG x h.mem_left with hx | hx
    · simp [h.of_sublist hU hGnd hx hy]
    · exact absurd ⟨hx, hy⟩ hDU
    · simp [hx, hy]
    · simp [h.of_sublist hD hGnd hx hy]
  · simp [h]
  · simp [h]
  · simp [hx, hy]
  · rcases hG x hx with hx | hx
    · rcases hy with hy | hy <;> simp [hx, hy]
    · rcases hy with hy | hy
      · exact absurd ⟨hx, hy⟩ hDB
      · simp [hx, hy]
  · rcases hy with hy | hy | hy
    · rcases hG y hy with hy | hy
      · exact absurd ⟨hx, hy⟩ hAU
      · simp [hx, hy]
    · simp [hx, hy]
    · simp [hx, hy]
  · rcases hy with hy | hy | hy | hy
    · simp [hx, hy]
    · rcases hG y hy with hy | hy <;> simp [hx, hy]
    · simp [hx, hy]
    · simp [hx, hy]

variable [DecidableEq α]

/-- `Operation::isBeforeInBlock` on handles: the position of `a` is before that of `b`. -/
def isBeforeInBlock (block : List α) (a b : α) : Bool := block.indexOf a < block.indexOf b

theorem isBeforeInBlock_iff {l : List α} {a b : α} (hl : l.Nodup) (ha : a ∈ l) (hb : b ∈ l) :
    isBeforeInBlock l a b = true ↔ Before l a b := by
  induction l with
  | nil => simp at ha
  | cons x l ih =>
    rw [nodup_cons] at hl
    simp only [isBeforeInBlock, decide_eq_true_eq, indexOf_cons, before_cons_iff] at ih ⊢
    rcases mem_cons.1 ha with rfl | ha' <;> rcases mem_cons.1 hb with rfl | hb'
    · simp only [beq_self_eq_true, cond_true, lt_self_iff_false, false_iff, not_or, not_and]
      exact ⟨fun h => hl.1 h.mem_left, fun _ => hl.1⟩
    · have : a ≠ b := fun h => hl.1 (h ▸ hb')
      simp [beq_false_of_ne this, hb']
    · have : b ≠ a := fun h => hl.1 (h ▸ ha')
      simp only [beq_self_eq_true, cond_true, beq_false_of_ne this, cond_false]
      refine iff_of_false (Nat.not_lt_zero _) ?_
      rintro (h | ⟨rfl, -⟩)
      · exact hl.1 h.mem_right
      · exact this rfl
    · have hxa : x ≠ a := fun h => hl.1 (h ▸ ha')
      have hxb : x ≠ b := fun h => hl.1 (h ▸ hb')
      simp only [beq_false_of_ne hxa, beq_false_of_ne hxb, cond_false, Nat.succ_lt_succ_iff,
        ih hl.2 ha' hb', hxa.symm, false_and, or_false]

/-- Every operand of an op of `l`, or of an op nested in it, that is defined by an op of
    `l` is defined by an earlier op of `l`. -/
def DepOrdered (f : Func) (l : List Nat) : Prop :=
  ∀ u d, f.Uses u d → u ∈ l → d ∈ l → Before l d u

/-! ## Ranges and moves -/

/-- The ops strictly between `a` and `b`: the range `[next(a), b)` that `tryMergeInto`
    copies into `toMove`. -/
def between (block : List α) (a b : α) : List α :=
  ((block.dropWhile (· ≠ a)).drop 1).takeWhile (· ≠ b)

theorem dropWhile_ne_append {P R : List α} {a : α} (h : a ∉ P) :
    (P ++ a :: R).dropWhile (· ≠ a) = a :: R := by
  induction P with
  | nil => simp
  | cons x P ih =>
    have hx : x ≠ a := fun e => h (e ▸ mem_cons_self x P)
    rw [cons_append, dropWhile_cons_of_pos (by simpa using hx)]
    exact ih (fun h' => h (mem_cons_of_mem x h'))

theorem takeWhile_ne_append {G S : List α} {b : α} (h : b ∉ G) :
    (G ++ b :: S).takeWhile (· ≠ b) = G := by
  induction G with
  | nil => simp
  | cons x G ih =>
    have hx : x ≠ b := fun e => h (e ▸ mem_cons_self x G)
    rw [cons_append, takeWhile_cons_of_pos (by simpa using hx)]
    exact congrArg _ (ih (fun h' => h (mem_cons_of_mem x h')))

theorem between_eq {P G S : List α} {a b : α} (ha : a ∉ P) (hb : b ∉ G) :
    between (P ++ a :: (G ++ b :: S)) a b = G := by
  rw [between, dropWhile_ne_append ha, drop_one, tail_cons, takeWhile_ne_append hb]

/-- The ops strictly between the last op of `A` and the first op of `B`. -/
theorem between_middle {P A G B S : List α} {a b : α} (hnd : (P ++ A ++ G ++ B ++ S).Nodup)
    (ha : A.getLast? = some a) (hb : B.head? = some b) :
    between (P ++ A ++ G ++ B ++ S) a b = G := by
  obtain ⟨A, rfl⟩ := getLast?_eq_some_iff.1 ha
  obtain ⟨B, rfl⟩ := head?_eq_some_iff.1 hb
  have e : P ++ (A ++ [a]) ++ G ++ b :: B ++ S = (P ++ A) ++ a :: (G ++ b :: (B ++ S)) := by simp
  rw [e] at hnd ⊢
  refine between_eq (fun h => disjoint_of_nodup_append hnd h (mem_cons_self _ _)) fun h => ?_
  exact disjoint_of_nodup_append (nodup_cons.1 (nodup_append.1 hnd).2.1).2 h (mem_cons_self _ _)

/-- Insert `op` just before the first `t`. -/
def insertBefore (op t : α) : List α → List α
  | [] => []
  | x :: xs => if x = t then op :: x :: xs else x :: insertBefore op t xs

/-- Insert `op` just after the first `t`. -/
def insertAfter (op t : α) : List α → List α
  | [] => []
  | x :: xs => if x = t then x :: op :: xs else x :: insertAfter op t xs

/-- `Operation::moveBefore`: unlink `op` from the block and insert it just before `t`. -/
def moveBefore (block : List α) (op t : α) : List α := insertBefore op t (block.erase op)

/-- `Operation::moveAfter`: unlink `op` from the block and insert it just after `t`. -/
def moveAfter (block : List α) (op t : α) : List α := insertAfter op t (block.erase op)

theorem insertBefore_append {X Y : List α} {op t : α} (h : t ∉ X) :
    insertBefore op t (X ++ t :: Y) = X ++ op :: t :: Y := by
  induction X with
  | nil => simp [insertBefore]
  | cons x X ih =>
    have hx : x ≠ t := fun e => h (e ▸ mem_cons_self x X)
    simp [insertBefore, hx, ih (fun h' => h (mem_cons_of_mem x h'))]

theorem insertAfter_append {X Y : List α} {op t : α} (h : t ∉ X) :
    insertAfter op t (X ++ t :: Y) = X ++ t :: op :: Y := by
  induction X with
  | nil => simp [insertAfter]
  | cons x X ih =>
    have hx : x ≠ t := fun e => h (e ▸ mem_cons_self x X)
    simp [insertAfter, hx, ih (fun h' => h (mem_cons_of_mem x h'))]

theorem filter_not_mem_cons {R U : List α} {o : α} (hR : R.Nodup) :
    (R.erase o).filter (fun x => x ∉ U) = R.filter (fun x => x ∉ o :: U) := by
  rw [hR.erase_eq_filter, filter_filter]
  congr 1; funext x; by_cases h : x = o <;> simp [h]

/-- The loop `for (op : moveUp) op->moveBefore(t)`: the ops of `U`, taken from after `t`,
    end up just before `t` in the order of `U`. -/
theorem foldl_moveBefore {P R U : List α} {t : α} (hU : U <+ R) (hR : R.Nodup)
    (hP : ∀ x ∈ U, x ∉ P) (ht : t ∉ P) (htU : t ∉ U) :
    U.foldl (fun b o => moveBefore b o t) (P ++ t :: R) =
      P ++ U ++ t :: R.filter (fun x => x ∉ U) := by
  induction U generalizing P R with
  | nil => simp
  | cons o U ih =>
    have hoU : o ∉ U := (nodup_cons.1 (hU.nodup hR)).1
    have hot : o ≠ t := fun e => htU (e ▸ mem_cons_self o U)
    have hstep : moveBefore (P ++ t :: R) o t = (P ++ [o]) ++ t :: R.erase o := by
      rw [moveBefore, erase_append_right _ (hP o (mem_cons_self o U)),
        erase_cons_tail (by simpa using Ne.symm hot), insertBefore_append ht]
      simp
    rw [foldl_cons, hstep, ih (by simpa using hU.erase o) (hR.erase o) ?_ ?_ ?_,
      filter_not_mem_cons hR]
    · simp
    · intro x hx hx'
      rcases mem_append.1 hx' with h | h
      · exact hP x (mem_cons_of_mem o hx) h
      · exact hoU (by simp at h; exact h ▸ hx)
    · simpa [Ne.symm hot] using ht
    · exact fun h => htU (mem_cons_of_mem o h)

/-- The loop `for (op : moveDown) op->moveAfter(t)`: the ops of `W`, taken from before
    `t`, end up just after `t` in the reverse of the order of `W`. -/
theorem foldl_moveAfter {X S W : List α} {t : α} (hW : W ⊆ X) (hWn : W.Nodup) (hX : X.Nodup)
    (ht : t ∉ X) :
    W.foldl (fun b o => moveAfter b o t) (X ++ t :: S) =
      X.filter (fun x => x ∉ W) ++ t :: (W.reverse ++ S) := by
  induction W generalizing X S with
  | nil => simp
  | cons o W ih =>
    rw [nodup_cons] at hWn
    have hoX : o ∈ X := hW (mem_cons_self o W)
    have htX : t ∉ X.erase o := fun h => ht ((erase_subset _ _) h)
    have hstep : moveAfter (X ++ t :: S) o t = X.erase o ++ t :: o :: S := by
      rw [moveAfter, erase_append_left _ hoX, insertAfter_append htX]
    rw [foldl_cons, hstep, ih ?_ hWn.2 (hX.erase o) htX, filter_not_mem_cons hX]
    · simp
    · intro x hx
      exact (mem_erase_of_ne (fun e => hWn.1 (by rwa [← e]))).2 (hW (mem_cons_of_mem o hx))

theorem perm_append_filter_not_mem {U R : List α} (hU : U <+ R) (hR : R.Nodup) :
    U ++ R.filter (fun x => x ∉ U) ~ R := by
  refine (perm_ext_iff_of_nodup (nodup_append.2 ⟨hU.nodup hR, hR.filter _, ?_⟩) hR).2 fun x => ?_
  · intro x hx hx'; simp at hx'; exact hx'.2 hx
  · by_cases hx : x ∈ U
    · simp [hx, hU.subset hx]
    · simp [hx]

/-- The two move loops of a successful merge, composed: the ops of `U` go just above the
    earlier cluster `A` and those of `W` just below the later cluster `B` (in the reverse
    of the order of `W`), and nothing else moves. -/
theorem foldl_moves {P A G B S U W : List α} {a b : α} (hnd : (P ++ A ++ G ++ B ++ S).Nodup)
    (ha : A.head? = some a) (hb : B.getLast? = some b) (hU : U <+ G) (hW : W.reverse <+ G)
    (hG : ∀ x ∈ G, x ∈ U ∨ x ∈ W) (hUW : ∀ x ∈ U, x ∉ W) :
    W.foldl (fun bl o => moveAfter bl o b)
        (U.foldl (fun bl o => moveBefore bl o a) (P ++ A ++ G ++ B ++ S)) =
      P ++ U ++ A ++ B ++ W.reverse ++ S := by
  obtain ⟨A, rfl⟩ : ∃ A', A = a :: A' := by
    cases A with
    | nil => simp at ha
    | cons a' A => simp at ha; exact ⟨A, by rw [ha]⟩
  obtain ⟨B, rfl⟩ : ∃ B', B = B' ++ [b] := by
    rcases eq_nil_or_concat B with rfl | ⟨B, b', rfl⟩
    · simp at hb
    · simp at hb; exact ⟨B, by rw [hb, concat_eq_append]⟩
  have hG' : ∀ x ∈ G, x ∉ P ++ a :: A ∧ x ∉ B ++ [b] ++ S := fun x hx =>
    not_mem_of_nodup_middle (by simpa using hnd) hx
  set R := A ++ G ++ B ++ b :: S with hR
  have hblk : P ++ a :: A ++ G ++ (B ++ [b]) ++ S = P ++ a :: R := by simp [R]
  rw [hblk] at hnd ⊢
  have hRnd : R.Nodup := (nodup_cons.1 (nodup_append.1 hnd).2.1).2
  have hUG : ∀ x ∈ U, x ∈ G := fun x hx => hU.subset hx
  rw [foldl_moveBefore (hU.trans (by simp [R])) hRnd (fun x hx hP => (hG' x (hUG x hx)).1
      (mem_append_left _ hP)) (fun h => disjoint_of_nodup_append hnd h (mem_cons_self a R))
      (fun h => (hG' a (hUG a h)).1 (by simp))]
  have hnd₁ : (P ++ U ++ a :: R.filter (fun x => x ∉ U)).Nodup := by
    refine (Perm.nodup_iff ?_).2 hnd
    simpa using (perm_middle.trans ((perm_append_filter_not_mem (hU.trans (by simp [R]))
      hRnd).cons a)).append_left P
  have hfU : R.filter (fun x => x ∉ U) = A ++ G.filter (fun x => x ∉ U) ++ B ++ b :: S := by
    have hout : ∀ L : List α, (∀ x ∈ L, x ∉ G) → L.filter (fun x => x ∉ U) = L :=
      fun L hL => filter_eq_self.2 fun x hx => by simpa using fun h => hL x hx (hUG x h)
    simp only [R, filter_append]
    rw [hout A, hout B, hout (b :: S)] <;> intro x hx hxG
    · exact (hG' x hxG).2 (by simp at hx ⊢; tauto)
    · exact (hG' x hxG).2 (by simp [hx])
    · exact (hG' x hxG).1 (by simp [hx])
  rw [hfU] at hnd₁ ⊢
  have hX : P ++ U ++ a :: (A ++ G.filter (fun x => x ∉ U) ++ B ++ b :: S) =
      (P ++ U ++ a :: A ++ G.filter (fun x => x ∉ U) ++ B) ++ b :: S := by simp
  rw [hX] at hnd₁ ⊢
  have hWG : ∀ x ∈ W, x ∈ G := fun x hx => hW.subset (mem_reverse.2 hx)
  rw [foldl_moveAfter (fun x hx => mem_append_left _ (mem_append_right _
      (mem_filter.2 ⟨hWG x hx, by simpa using fun h => hUW x h hx⟩)))
    (nodup_reverse.1 (hW.nodup (hRnd.sublist (by simp [R])))) (nodup_append.1 hnd₁).1
    (fun h => disjoint_of_nodup_append hnd₁ h (mem_cons_self b S))]
  have hout : ∀ L : List α, (∀ x ∈ L, x ∉ G) → L.filter (fun x => x ∉ W) = L :=
    fun L hL => filter_eq_self.2 fun x hx => by simpa using fun h => hL x hx (hWG x h)
  simp only [filter_append, filter_cons]
  rw [hout P (fun x hx hxG => (hG' x hxG).1 (by simp [hx])),
    filter_eq_self.2 fun x hx => by simpa using hUW x hx,
    hout A (fun x hx hxG => (hG' x hxG).1 (by simp [hx])),
    hout B (fun x hx hxG => (hG' x hxG).2 (by simp [hx])),
    filter_eq_nil_iff.2 fun x hx => by
      simp at hx ⊢; exact (hG x hx.1).resolve_left hx.2]
  have ha' : a ∉ W := fun h => (hG' a (hWG a h)).1 (by simp)
  simp [ha']

end GraphClustering
