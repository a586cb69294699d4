/-
# Calls of Fraser's skip list that run alone

Keys go up along every level, so a traversal comes to the tail. What makes a
call begin a search again is a mark or a failed CAS on something that was read
before the other threads stopped; or a deleted node of its key, which an insert
marks before it searches again. A search that runs alone comes to an unmarked
node, so each such round marks one more node, and there are finitely many.

At an upper level an insert gives up when its own node is marked. While it is
not, no other node of its key is linked there, since the insert's own node is
linked at level 0: a search that runs alone does not lead to `linkInside`.

Key theorem: `fraser_solo`.
-/
import Ascylib.Concur.Solo
import Ascylib.FraserReclaim

set_option linter.unusedSectionVars false

namespace Ascylib

open Concur Chain

namespace SkipHeap

variable {T K V : Type*} [DecidableEq T] [LinearOrder K] [BoundedOrder K] {S : Set (SkipHeap T K V)}
  {s : SkipHeap T K V} {i j : ℕ} {p q x y : Ptr T}

/-! ### Sorted levels come to an end -/

section rest

variable (w : Leveled S s) (hfin : {x | s.Allocated x}.Finite) (hx : PubAt i S x)

include w hx

theorem pub_of_onward (h : Relation.ReflTransGen (Onward s i) x y) :
    PubAt i S y ∧ s.key x ≤ s.key y := by
  induction h with
  | refl => exact ⟨hx, le_rfl⟩
  | @tail y z _ hyz ih =>
    obtain ⟨hyt, rfl⟩ := hyz
    obtain ⟨h1, h2⟩ := w.next ih.1 hyt
    exact ⟨h1, ih.2.trans h2.le⟩

theorem allocated_of_onward (h : Relation.ReflTransGen (Onward s i) x y) : s.Allocated y :=
  (w.listed i).alloc y (pub_of_onward w hx h).1

include hfin

theorem Leveled.rest_lt (hxt : x ≠ .tail) : rest s i (s.next x i).ptr < rest s i x := by
  obtain ⟨h1, h2⟩ := w.next hx hxt
  refine rest_lt_of_not_back hfin (fun y => allocated_of_onward w hx) hxt fun h => ?_
  exact absurd (pub_of_onward w h1 h).2 (not_le.mpr h2)

theorem Leveled.rest_pos : 0 < rest s i x :=
  rest_pos_of_allocated hfin fun _ => allocated_of_onward w hx

end rest

/-! ### Nodes that are not marked yet -/

/-- How many nodes are not marked at level 0. -/
noncomputable def unmarked (s : SkipHeap T K V) : ℕ := {x | s.Allocated x ∧ ¬ s.Marked x 0}.ncard

theorem unmarked_swing (hm : ¬ s.Marked p i) : unmarked (s.setNext p i q.ref) = unmarked s := by
  have he : ∀ x, (s.setNext p i q.ref).Marked x 0 ↔ s.Marked x 0 := fun x => marked_swing hm
  simp only [unmarked, he]
  rfl

theorem unmarked_mark_of_ne (h : i ≠ 0) : unmarked (s.setNext p i (setMark q.ref)) = unmarked s := by
  have he : ∀ x, (s.setNext p i (setMark q.ref)).Marked x 0 ↔ s.Marked x 0 := fun x =>
    marked_setNext_of_ne (Or.inr h.symm) _
  simp only [unmarked, he]
  rfl

theorem unmarked_mark (hfin : {x | s.Allocated x}.Finite) (hp : s.Allocated p)
    (hm : ¬ s.Marked p 0) : unmarked (s.setNext p 0 (setMark q.ref)) < unmarked s := by
  refine Set.ncard_lt_ncard ⟨fun x hx => ⟨hx.1, fun h => hx.2 ?_⟩, fun h => ?_⟩
    (hfin.subset fun _ hx => hx.1)
  · exact (mark_marked x 0).mpr (Or.inl h)
  · exact (h ⟨hp, hm⟩ : _ ∧ _).2 ((mark_marked p 0).mpr (Or.inr ⟨rfl, rfl⟩))

end SkipHeap

namespace SkiplistFraser

open FraserHeap
open SkipHeap (LnkAt PubAt Leveled rest unmarked)

variable {T K V : Type*} [DecidableEq T] [LinearOrder K]

/-! ### What is still so -/

/-- From level `i` up, `preds` point to `succs`, which are not marked. -/
def Lists.Adjacent (levelmax : ℕ) (s : FraserHeap T K V) (i : ℕ) (a : Lists T) : Prop :=
  ∀ j, i ≤ j → j < levelmax →
    s.heap.next (a.preds j) j = (a.succs j).ref ∧ ¬ s.heap.Marked (a.succs j) j

def Caller.Adjacent (levelmax : ℕ) (s : FraserHeap T K V) (i : ℕ) (a : Lists T) : Caller T V → Prop
  | .insert _ | .link _ _ => a.Adjacent levelmax s i
  | _ => True

/-- In a round that has begun since the other threads stopped, what the call
has read is still so. -/
def Fresh (levelmax : ℕ) (s : FraserHeap T K V) (_ : Call K V) : Pc T V → Prop
  | .fraser c left i lists => ¬ s.heap.Marked left i ∧ c.Adjacent levelmax s (i + 1) lists
  | .fraserNext c left leftNext _ i lists => s.heap.next left i = leftNext.ref ∧
      c.Adjacent levelmax s (i + 1) lists
  | .fraserKey c left leftNext right rightNext i lists => s.heap.next left i = leftNext.ref ∧
      s.heap.next right i = rightNext.ref ∧ c.Adjacent levelmax s (i + 1) lists
  | .fraserCas c left leftNext right i lists => s.heap.next left i = leftNext.ref ∧
      ¬ s.heap.Marked right i ∧ c.Adjacent levelmax s (i + 1) lists
  | .fraserRet c lists => c.Adjacent levelmax s 0 lists
  | .insertKey _ lists | .insertDeleted _ lists | .insertFill _ _ lists | .insertCas _ lists =>
    lists.Adjacent levelmax s 0
  | .linkTop _ i lists | .linkNext _ i lists | .linkCas _ i lists => lists.Adjacent levelmax s i
  | .linkSwing newNode _ i lists | .linkKey newNode i lists => ¬ s.heap.Marked newNode i ∧
      lists.Adjacent levelmax s i
  | .linkInside _ _ _ => False
  | .markTop m node | .markNext m node _ | .markCas m node _ _ =>
    (∃ newNode, m = .insert newNode) → ¬ s.heap.Marked node 0
  | _ => True

/-! ### How far a call is from its end -/

def Caller.phase (levelmax : ℕ) : Caller T V → ℕ
  | .search => 1
  | .insert _ => levelmax + 4
  | .link _ i => levelmax + 1 - i
  | .remove => 5
  | .removed _ => 1

def Marker.phase (levelmax : ℕ) : Marker T → ℕ
  | .insert _ => levelmax + 4
  | .remove => 4

/-- The phases of a call: to find the place, to link a level or to mark the
levels, to unlink the node. -/
def phase (levelmax : ℕ) : Pc T V → ℕ
  | .fraser c _ _ _ | .fraserNext c _ _ _ _ _ | .fraserKey c _ _ _ _ _ _ | .fraserCas c _ _ _ _ _ |
    .fraserRet c _ => c.phase levelmax
  | .searchKey _ | .searchDeleted _ | .searchVal _ => 1
  | .insertAlloc => levelmax + 5
  | .insertKey _ _ | .insertDeleted _ _ | .insertFill _ _ _ | .insertCas _ _ => levelmax + 4
  | .insertFree _ => 1
  | .linkTop _ i _ | .linkNext _ i _ | .linkSwing _ _ i _ | .linkKey _ i _ | .linkCas _ i _ |
    .linkInside _ i _ => levelmax + 1 - i
  | .markTop m _ | .markNext m _ _ | .markCas m _ _ _ => m.phase levelmax
  | .removeKey _ | .removeDeleted _ | .removeInc _ => 5
  | .removeVal _ => 3
  | .removeFree _ _ => 2
  | .done _ | .unchanged _ => 0

/-- Within a phase: the nodes that are not marked, the part of the phase, what
is left of the part, and the point. -/
noncomputable def rank (levelmax : ℕ) (s : FraserHeap T K V) (l : Pc T V) : ℕ ×ₗ ℕ ×ₗ ℕ ×ₗ ℕ :=
  toLex (unmarked s.heap, match l with
    | .fraser _ left i _ => toLex (i + 4, toLex (rest s.heap i left, 0))
    | .fraserNext _ _ _ right i _ => toLex (i + 4, toLex (rest s.heap i right, 1))
    | .fraserKey _ _ _ right rightNext i _ =>
      toLex (i + 4, toLex (if right = .tail then 0 else rest s.heap i rightNext, 2))
    | .fraserCas _ _ _ _ i _ => toLex (i + 4, toLex (0, 0))
    | .fraserRet _ _ => toLex (3, toLex (0, 2))
    | .searchKey _ | .insertKey _ _ | .removeKey _ => toLex (3, toLex (0, 1))
    | .searchDeleted _ | .insertDeleted _ _ | .removeDeleted _ => toLex (3, toLex (0, 0))
    | .searchVal _ | .removeInc _ => toLex (2, toLex (0, 0))
    | .insertFill _ i _ => toLex (1, toLex (levelmax + 1 - i, 0))
    | .linkTop _ _ _ => toLex (2, toLex (0, 4))
    | .linkNext _ _ _ => toLex (2, toLex (0, 3))
    | .linkSwing _ _ _ _ => toLex (2, toLex (0, 2))
    | .linkKey _ _ _ => toLex (2, toLex (0, 1))
    | .markTop _ node => toLex (2, toLex (s.heap.toplevel node + 1, 0))
    | .markNext _ _ i => toLex (2, toLex (i + 1, 1))
    | .markCas _ node nodeNext i =>
      toLex (2, toLex (i + 1, if s.heap.next node i = nodeNext.ref then 0 else 2))
    | _ => toLex (0, toLex (0, 0)))

/-! ### Every step brings a call nearer to its end -/

variable [BoundedOrder K] [Zero V] {levelmax : ℕ} {t : T} {S W : Set (FraserHeap T K V)}
  {s s' : FraserHeap T K V} {op : Call K V} {l l' : Pc T V} {level i : ℕ}

/-- A step brings the call nearer to its end. -/
abbrev Nearer (levelmax : ℕ) (s : FraserHeap T K V) (op : Call K V) (l : Pc T V)
    (q : FraserHeap T K V × Pc T V) : Prop :=
  Program.Nearer (phase levelmax) (Fresh levelmax) (rank levelmax) s op l q

/-- The search begins with nothing to go out of date. -/
theorem fresh_begin {c : Caller T V} {lists : Lists T} (hm : ∀ i, ¬ s.heap.Marked .head i) :
    Fresh levelmax s op (begin levelmax c lists) := by
  refine ⟨hm _, ?_⟩
  have h : lists.Adjacent levelmax s (levelmax - 1 + 1) := fun j hij hj => by omega
  cases c with
  | insert | link => exact h
  | search | remove | removed => trivial

theorem adjacent_setNext {a : Lists T} {x : Ptr T} {m : ℕ} {r : Ref T}
    (h : a.Adjacent levelmax s i)
    (hne : ∀ j, i ≤ j → j < levelmax →
      (a.preds j ≠ x ∨ j ≠ m) ∧ (a.succs j ≠ x ∨ j ≠ m)) :
    a.Adjacent levelmax (s.setNext x m r) i := by
  intro j hij hj
  obtain ⟨h1, h2⟩ := h j hij hj
  obtain ⟨h3, h4⟩ := hne j hij hj
  refine ⟨(SkipHeap.next_setNext_of_ne _ _ _ _ _ _ h3).trans h1, ?_⟩
  rwa [FraserHeap.setNext, SkipHeap.marked_setNext_of_ne h4]

theorem caller_adjacent_setNext {c : Caller T V} {a : Lists T} {x : Ptr T} {r : Ref T}
    (h : c.Adjacent levelmax s (i + 1) a) : c.Adjacent levelmax (s.setNext x i r) (i + 1) a := by
  cases c with
  | insert | link =>
    exact adjacent_setNext h fun j hij _ => ⟨Or.inr (by omega), Or.inr (by omega)⟩
  | search | remove | removed => trivial

theorem adjacent_record {c : Caller T V} {a : Lists T} {left right : Ptr T}
    (hn : s.heap.next left i = right.ref) (hm : ¬ s.heap.Marked right i)
    (h : c.Adjacent levelmax s (i + 1) a) :
    c.Adjacent levelmax s i (a.record c i left right) := by
  have hset : a.Adjacent levelmax s (i + 1) →
      Lists.Adjacent levelmax s i ⟨Function.update a.preds i left, Function.update a.succs i right⟩ := by
    intro ha j hij hj
    rcases hij.eq_or_lt with rfl | hij
    · simp only [Function.update_self]
      exact ⟨hn, hm⟩
    · simp only [Function.update_of_ne hij.ne']
      exact ha j hij hj
  cases c with
  | insert | link => exact hset h
  | search | remove | removed => trivial

/-- A node without a mark has none further down. -/
theorem not_marked_down {x : Ptr T} {j : ℕ} (w : Wf S s) (hx : Pub i S x) (hm : ¬ s.heap.Marked x i)
    (hj : j ≤ i) : ¬ s.heap.Marked x j := by
  rcases hj.eq_or_lt with rfl | hj
  · exact hm
  · intro h
    have hxh : x ≠ .head := fun he => w.leveled.head_mark j (he ▸ h)
    have hxt : x ≠ .tail := fun he => w.leveled.tail_mark j (he ▸ h)
    exact hm ((w.marks h).2.2 i hj (w.leveled.top hx hxh hxt))

section step

variable (hpos : 0 < levelmax) (w : Wf S s) (hfin : {x | s.heap.Allocated x}.Finite)
  (hb : ⊥ < op.key) (ht : op.key < ⊤) (hat : At levelmax t S W s op l)

include w hfin hat

omit hfin hat in
/-- `fraser_search` goes on below a level whose pointer leads to `right`. -/
theorem nearer_fraserLevel {c : Caller T V} {left right : Ptr T} {lists : Lists T} {b p : ℕ}
    (hx : Pub i S left) (hp : phase levelmax l = c.phase levelmax)
    (hu : unmarked s'.heap = unmarked s.heap)
    (hr : rank levelmax s l = toLex (unmarked s.heap, toLex (i + 4, toLex (b, p))))
    (hf : Fresh levelmax s op l → s'.heap.next left i = right.ref ∧ ¬ s'.heap.Marked right i ∧
      c.Adjacent levelmax s' (i + 1) lists ∧ ∀ j, i = j + 1 → ¬ s'.heap.Marked left j) :
    Nearer levelmax s op l (s', fraserLevel c left right i lists) := by
  cases i with
  | zero =>
    refine .on hp.symm (fun h => ?_) ?_
    · obtain ⟨h1, h2, h3, -⟩ := hf h
      exact adjacent_record h1 h2 h3
    · show toLex (unmarked s'.heap, toLex (3, toLex (0, 2))) < _
      rw [hr, hu]
      exact lex_right (lex_left (show 3 < 4 by decide))
  | succ i =>
    refine .on hp.symm (fun h => ?_) ?_
    · obtain ⟨h1, h2, h3, h4⟩ := hf h
      exact ⟨h4 i rfl, adjacent_record h1 h2 h3⟩
    · show toLex (unmarked s'.heap, toLex (i + 4, toLex (rest s'.heap i left, 0))) < _
      rw [hr, hu]
      exact lex_right (lex_left (show i + 4 < i + 1 + 4 by omega))

theorem nearer_fraser (hl : (∃ c a i x, l = .fraser c a i x) ∨
    (∃ c a b y i x, l = .fraserNext c a b y i x) ∨ (∃ c a b y z i x, l = .fraserKey c a b y z i x) ∨
    ∃ c a b y i x, l = .fraserCas c a b y i x) :
    Nearer levelmax s op l (step levelmax level t s op l) := by
  rcases hl with ⟨c, a, i, x, rfl⟩ | ⟨c, a, b, y, i, x, rfl⟩ | ⟨c, a, b, y, z, i, x, rfl⟩ |
    ⟨c, a, b, y, i, x, rfl⟩
  · obtain ⟨-, ⟨h2, h3⟩, -⟩ := hat
    by_cases hm : s.heap.Marked a i
    · simp only [step, isMarked, show (s.heap.next a i).mark = true from hm, if_true]
      exact .again rfl (fun hf => hf.1 hm) (fresh_begin w.leveled.head_mark)
    · simp only [step, isMarked, show (s.heap.next a i).mark = false by simpa [SkipHeap.Marked] using hm]
      have hlt := w.leveled.rest_lt hfin h2 (w.leveled.ne_tail_of_lt h3)
      exact .on rfl (fun hf => ⟨SkipHeap.next_eq_ref hm, hf.2⟩) (lex_right (lex_right (lex_left hlt)))
  · obtain ⟨-, -, -, h4, -⟩ := hat
    by_cases hm : s.heap.Marked y i
    · simp only [step, isMarked, show (s.heap.next y i).mark = true from hm, if_true]
      have hlt := w.leveled.rest_lt hfin h4 fun he => w.leveled.tail_mark i (he ▸ hm)
      exact .on rfl id (lex_right (lex_right (lex_left hlt)))
    · simp only [step, isMarked, show (s.heap.next y i).mark = false by simpa [SkipHeap.Marked] using hm]
      refine .on rfl (fun hf => ⟨hf.1, SkipHeap.next_eq_ref hm, hf.2⟩)
        (lex_right (lex_right (lex_left ?_)))
      by_cases hyt : y = .tail
      · rw [if_pos hyt]
        exact w.leveled.rest_pos hfin h4
      · rw [if_neg hyt]
        exact w.leveled.rest_lt hfin h4 hyt
  · obtain ⟨-, ⟨h2, -⟩, -⟩ := hat
    by_cases hle : op.key ≤ s.heap.key y
    · by_cases hby : b = y
      · simp only [step, hle, if_true, hby, ne_eq, not_true_eq_false, if_false]
        subst hby
        refine nearer_fraserLevel w h2 rfl rfl rfl fun hf => ⟨hf.1, ?_, hf.2.2, ?_⟩
        · exact SkipHeap.not_marked_of_next hf.2.1
        · rintro j rfl
          exact not_marked_down w h2 (SkipHeap.not_marked_of_next hf.1) j.le_succ
      · simp only [step, hle, if_true, ne_eq, hby, not_false_eq_true]
        refine .on rfl (fun hf => ⟨hf.1, SkipHeap.not_marked_of_next hf.2.1, hf.2.2⟩)
          (lex_right (lex_right ?_))
        rcases Nat.eq_zero_or_pos (if y = .tail then 0 else rest s.heap i z) with h0 | h0
        · rw [h0]
          exact lex_right (by decide)
        · exact lex_left h0
    · simp only [step, hle, if_false]
      have hyt := w.leveled.ne_tail_of_lt (not_le.mp hle)
      refine .on rfl (fun hf => hf.2) (lex_right (lex_right ?_))
      rw [if_neg hyt]
      exact lex_right (by decide)
  · obtain ⟨-, ⟨h2, -⟩, -⟩ := hat
    rcases hc : s.cas a i b.ref y.ref with ⟨⟨⟩, s'⟩
    · simp only [step, hc]
      obtain ⟨hne, rfl⟩ := cas_false hc
      exact .again rfl (fun hf => hne hf.1) (fresh_begin w.leveled.head_mark)
    · simp only [step, hc]
      obtain ⟨hn, rfl⟩ := cas_true hc
      have hm := SkipHeap.not_marked_of_next hn
      refine nearer_fraserLevel w h2 rfl (SkipHeap.unmarked_swing hm) rfl fun hf =>
        ⟨SkipHeap.next_setNext_self _ _ _ _, ?_, caller_adjacent_setNext hf.2.2, ?_⟩
      · rw [FraserHeap.setNext, SkipHeap.marked_swing hm]
        exact hf.2.1
      · rintro j rfl
        rw [FraserHeap.setNext, SkipHeap.marked_swing hm]
        exact not_marked_down w h2 hm j.le_succ

omit w hfin hat in
theorem nearer_ret {c : Caller T V} {x : Lists T} :
    Nearer levelmax s op (.fraserRet c x) (step levelmax level t s op (.fraserRet c x)) := by
  cases c with
  | search => exact .on rfl (fun _ => trivial) (lex_right (lex_right (lex_right (by decide))))
  | insert n => exact .on rfl id (lex_right (lex_right (lex_right (by decide))))
  | link n i => exact .on rfl (fun hf j _ hj => hf j j.zero_le hj) (lex_right (lex_left (by decide)))
  | remove => exact .on rfl (fun _ => trivial) (lex_right (lex_right (lex_right (by decide))))
  | removed r => exact Or.inl (show 0 < 1 by decide)

omit w hfin hat in
theorem nearer_search (hl : (∃ n, l = .searchKey n) ∨ (∃ n, l = .searchDeleted n) ∨
    ∃ n, l = .searchVal n) : Nearer levelmax s op l (step levelmax level t s op l) := by
  rcases hl with ⟨n, rfl⟩ | ⟨n, rfl⟩ | ⟨n, rfl⟩
  · simp only [step]
    split
    · exact .on rfl id (lex_right (lex_right (lex_right (by decide))))
    · exact Or.inl (show 0 < 1 by decide)
  · simp only [step]
    split
    · exact .on rfl id (lex_right (lex_left (by decide)))
    · exact Or.inl (show 0 < 1 by decide)
  · exact Or.inl (show 0 < 1 by decide)

include hpos in
theorem nearer_insert (hl : l = .insertAlloc ∨ (∃ n x, l = .insertKey n x) ∨
    (∃ n x, l = .insertDeleted n x) ∨ (∃ n, l = .insertFree n) ∨ (∃ n i x, l = .insertFill n i x) ∨
    ∃ n x, l = .insertCas n x) : Nearer levelmax s op l (step levelmax level t s op l) := by
  rcases hl with rfl | ⟨n, x, rfl⟩ | ⟨n, x, rfl⟩ | ⟨n, rfl⟩ | ⟨n, i, x, rfl⟩ | ⟨n, x, rfl⟩
  · obtain ⟨k, v, rfl⟩ := hat
    exact Or.inl (show levelmax + 4 < levelmax + 5 by omega)
  · simp only [step]
    split
    · exact .on rfl id (lex_right (lex_right (lex_right (by decide))))
    · exact .on rfl id (lex_right (lex_left (by decide)))
  · simp only [step]
    split
    · exact .on rfl (fun hf _ => (hf 0 le_rfl hpos).2) (lex_right (lex_left (by decide)))
    · exact Or.inl (show 1 < levelmax + 4 by omega)
  · exact Or.inl (show 0 < 1 by decide)
  · obtain ⟨k, v, m, rfl, h2, h3, h4, h5, h6, h7, h8⟩ := hat
    simp only [step]
    split
    · have hne : ∀ j, j < levelmax → x.preds j ≠ n ∧ x.succs j ≠ n := by
        intro j hj
        obtain ⟨⟨h9, -⟩, h10, -⟩ := h7 j j.zero_le hj
        exact ⟨fun he => h5.not_pub (he ▸ w.leveled.pub_zero h9),
          fun he => h5.not_pub (he ▸ w.leveled.pub_zero h10)⟩
      refine .on rfl (fun hf => ?_) ?_
      · exact adjacent_setNext hf fun j _ hj => ⟨Or.inl (hne j hj).1, Or.inl (hne j hj).2⟩
      · have hu : unmarked (s.setNext n i (x.succs i).ref).heap = unmarked s.heap :=
          SkipHeap.unmarked_swing fun hm => h5.not_pub (w.marks hm).1
        simp only [rank, hu]
        exact lex_right (lex_right (lex_left (show levelmax + 1 - (i + 1) < levelmax + 1 - i by omega)))
    · exact .on rfl id (lex_right (lex_left (by decide)))
  · rcases hc : s.cas (x.preds 0) 0 (x.succs 0).ref n.ref with ⟨⟨⟩, s'⟩
    · simp only [step, hc]
      obtain ⟨hne, rfl⟩ := cas_false hc
      exact .again rfl (fun hf => hne (hf 0 le_rfl hpos).1) (fresh_begin w.leveled.head_mark)
    · simp only [step, hc]
      exact Or.inl (show levelmax + 1 - 1 < levelmax + 4 by omega)

omit hfin hat in
/-- While the insert's node is not marked, no other node of its key is linked
above. -/
theorem not_inside {n y : Ptr T} (h : Linking levelmax t S s op i n) (hn : ¬ s.heap.Marked n i)
    (hy : Pub i S y) (hm : ¬ s.heap.Marked y i) : s.heap.key y ≠ op.key := by
  obtain ⟨h1, h2, -⟩ := h
  intro hk
  have hln : LnkAt 0 s.heap n := by
    refine w.leveled.lnk h1.pub fun h0 => hn ?_
    exact (w.marks h0).2.2 i (Nat.pos_of_ne_zero h1.pos) h2
  have hly : LnkAt 0 s.heap y :=
    w.leveled.lnk (w.leveled.pub_zero hy) (not_marked_down w hy hm i.zero_le)
  obtain rfl : y = n := w.leveled.inj hly hln (hk.trans h1.key.symm)
  exact h1.out i le_rfl hy

omit hfin in
theorem nearer_link (hl : (∃ n i x, l = .linkTop n i x) ∨ (∃ n i x, l = .linkNext n i x) ∨
    (∃ n y i x, l = .linkSwing n y i x) ∨ (∃ n i x, l = .linkKey n i x) ∨
    (∃ n i x, l = .linkCas n i x) ∨ ∃ n i x, l = .linkInside n i x) :
    Nearer levelmax s op l (step levelmax level t s op l) := by
  rcases hl with ⟨n, i, x, rfl⟩ | ⟨n, i, x, rfl⟩ | ⟨n, y, i, x, rfl⟩ | ⟨n, i, x, rfl⟩ |
    ⟨n, i, x, rfl⟩ | ⟨n, i, x, rfl⟩
  · have hi : i ≤ levelmax := hat.1.le.trans hat.1.top
    simp only [step]
    split
    · exact .on rfl id (lex_right (lex_right (lex_right (by decide))))
    · exact Or.inl (show 0 < levelmax + 1 - i by omega)
  · have hi : i ≤ levelmax := hat.1.le.trans hat.1.top
    by_cases hm : s.heap.Marked n i
    · simp only [step, isMarked, show (s.heap.next n i).mark = true from hm, if_true]
      exact Or.inl (show 0 < levelmax + 1 - i by omega)
    · simp only [step, isMarked, show (s.heap.next n i).mark = false by simpa [SkipHeap.Marked] using hm]
      by_cases he : (s.heap.next n i).ptr = x.succs i
      · simp only [he, ne_eq, not_true_eq_false, if_false]
        exact .on rfl (fun hf => ⟨hm, hf⟩) (lex_right (lex_right (lex_right (by decide))))
      · simp only [ne_eq, he, not_false_eq_true, if_true]
        exact .on rfl (fun hf => ⟨hm, hf⟩) (lex_right (lex_right (lex_right (by decide))))
  · obtain ⟨⟨h1, h2, -⟩, h3, -⟩ := hat
    have hi : i < levelmax := h2.trans_le h1.top
    rcases hc : s.cas n i y.ref (x.succs i).ref with ⟨⟨⟩, s'⟩
    · simp only [step, hc]
      exact Or.inl (show levelmax + 1 - (i + 1) < levelmax + 1 - i by omega)
    · simp only [step, hc]
      obtain ⟨hn, rfl⟩ := cas_true hc
      have hm := SkipHeap.not_marked_of_next hn
      have hne : ∀ j, i ≤ j → j < levelmax → x.preds j ≠ n ∧ x.succs j ≠ n := by
        intro j hij hj
        obtain ⟨⟨h9, -⟩, h10, -⟩ := h3 j j.zero_le hj
        exact ⟨fun he => h1.out j hij (he ▸ h9), fun he => h1.out j hij (he ▸ h10)⟩
      have hu : unmarked (s.setNext n i (x.succs i).ref).heap = unmarked s.heap :=
        SkipHeap.unmarked_swing hm
      refine .on rfl (fun hf => ⟨?_, ?_⟩) ?_
      · rwa [FraserHeap.setNext, SkipHeap.marked_swing hm]
      · exact adjacent_setNext hf.2 fun j hij hj =>
          ⟨Or.inl (hne j hij hj).1, Or.inl (hne j hij hj).2⟩
      · simp only [rank, hu]
        exact lex_right (lex_right (lex_right (by decide)))
  · obtain ⟨h1, h2, h3⟩ := hat
    have hi : i < levelmax := h1.2.1.trans_le h1.1.top
    by_cases he : s.heap.key (x.succs i) = op.key
    · simp only [step, he, if_true]
      refine .on rfl (fun hf => ?_) (lex_right (lex_left (by decide)))
      exact not_inside w h1 hf.1 (h2 i i.zero_le hi).2.1 (hf.2 i le_rfl hi).2 he
    · simp only [step, he, if_false]
      exact .on rfl (fun hf => hf.2) (lex_right (lex_left (by decide)))
  · obtain ⟨h1, h2, -⟩ := hat
    have hi : i < levelmax := h1.2.1.trans_le h1.1.top
    rcases hc : s.cas (x.preds i) i (x.succs i).ref n.ref with ⟨⟨⟩, s'⟩
    · simp only [step, hc]
      obtain ⟨hne, rfl⟩ := cas_false hc
      exact .again rfl (fun hf => hne (hf i le_rfl hi).1) (fresh_begin w.leveled.head_mark)
    · simp only [step, hc]
      exact Or.inl (show levelmax + 1 - (i + 1) < levelmax + 1 - i by omega)
  · exact .again rfl id (fresh_begin w.leveled.head_mark)

include hb ht in
theorem nearer_mark (hl : (∃ m n, l = .markTop m n) ∨ (∃ m n i, l = .markNext m n i) ∨
    ∃ m n y i, l = .markCas m n y i) : Nearer levelmax s op l (step levelmax level t s op l) := by
  rcases hl with ⟨m, n, rfl⟩ | ⟨m, n, i, rfl⟩ | ⟨m, n, y, i, rfl⟩
  · obtain ⟨-, h2⟩ := hat
    have htop := w.leveled.top h2.1 (w.leveled.ne_head_of_lt (k := ⊥) (by rw [h2.2.1]; exact hb))
      (w.leveled.ne_tail_of_lt (k := ⊤) (by rw [h2.2.1]; exact ht))
    obtain ⟨i, hi⟩ := Nat.exists_eq_succ_of_ne_zero htop.ne'
    simp only [step, hi]
    refine .on rfl id (lex_right (lex_right (lex_left ?_)))
    rw [hi]
    exact Nat.lt_succ_self _
  · by_cases hm : s.heap.Marked n i
    · simp only [step, isMarked, show (s.heap.next n i).mark = true from hm, if_true]
      cases i with
      | zero =>
        cases m with
        | insert n' => exact .again rfl (fun hf => hf ⟨n', rfl⟩ hm) (fresh_begin w.leveled.head_mark)
        | remove => exact Or.inl (show 3 < 4 by decide)
      | succ i => exact .on rfl id (lex_right (lex_right (lex_left (Nat.lt_succ_self _))))
    · simp only [step, isMarked, show (s.heap.next n i).mark = false by simpa [SkipHeap.Marked] using hm]
      refine .on rfl id (lex_right (lex_right (lex_right ?_)))
      rw [if_pos (SkipHeap.next_eq_ref hm)]
      exact one_pos
  · obtain ⟨-, h2, -⟩ := hat
    have hnh : .head ≠ n :=
      (w.leveled.ne_head_of_lt (k := ⊥) (by rw [h2.2.1]; exact hb)).symm
    rcases hc : s.cas n i y.ref (setMark y.ref) with ⟨⟨⟩, s'⟩
    · simp only [step, hc]
      obtain ⟨hne, rfl⟩ := cas_false hc
      refine .on rfl id (lex_right (lex_right (lex_right ?_)))
      rw [if_neg hne]
      exact one_lt_two
    · simp only [step, hc]
      obtain ⟨hn, rfl⟩ := cas_true hc
      cases i with
      | zero =>
        cases m with
        | insert n' =>
          -- one node less is not marked
          have hlt : unmarked (s.setNext n 0 (setMark y.ref)).heap < unmarked s.heap :=
            SkipHeap.unmarked_mark hfin ((w.leveled.listed 0).alloc n h2.1)
              (SkipHeap.not_marked_of_next hn)
          refine .on rfl (fun _ => ?_) (lex_left hlt)
          refine fresh_begin fun j => ?_
          rw [FraserHeap.setNext, SkipHeap.marked_setNext_of_ne (Or.inl hnh)]
          exact w.leveled.head_mark j
        | remove => exact Or.inl (show 3 < 4 by decide)
      | succ i =>
        have hu : unmarked (s.setNext n (i + 1) (setMark y.ref)).heap = unmarked s.heap :=
          SkipHeap.unmarked_mark_of_ne i.succ_ne_zero
        refine .on rfl (fun hf hm => ?_) ?_
        · rw [FraserHeap.setNext, SkipHeap.marked_setNext_of_ne (Or.inr i.succ_ne_zero.symm)]
          exact hf hm
        · show toLex (unmarked (s.setNext n (i + 1) (setMark y.ref)).heap, toLex (2, toLex (i + 1, 1))) < _
          rw [hu]
          exact lex_right (lex_right (lex_left (Nat.lt_succ_self _)))

omit w hfin hat in
theorem nearer_remove (hl : (∃ n, l = .removeKey n) ∨ (∃ n, l = .removeDeleted n) ∨
    (∃ n, l = .removeInc n) ∨ (∃ n, l = .removeVal n) ∨ ∃ n r, l = .removeFree n r) :
    Nearer levelmax s op l (step levelmax level t s op l) := by
  rcases hl with ⟨n, rfl⟩ | ⟨n, rfl⟩ | ⟨n, rfl⟩ | ⟨n, rfl⟩ | ⟨n, r, rfl⟩
  · simp only [step]
    split
    · exact Or.inl (show 0 < 5 by decide)
    · exact .on rfl id (lex_right (lex_right (lex_right (by decide))))
  · simp only [step]
    split
    · exact Or.inl (show 0 < 5 by decide)
    · exact .on rfl id (lex_right (lex_left (by decide)))
  · simp only [step]
    split
    · exact Or.inl (show 4 < 5 by decide)
    · exact Or.inl (show 0 < 5 by decide)
  · exact Or.inl (show 2 < 3 by decide)
  · exact Or.inl (show 1 < 2 by decide)

include hpos hb ht in
/-- **Every step brings a call that runs alone nearer to its end.** -/
theorem nearer (hres : result l = none) :
    Nearer levelmax s op l (step levelmax level t s op l) := by
  cases l
  case fraser | fraserNext | fraserKey | fraserCas => exact nearer_fraser w hfin hat (by simp)
  case fraserRet => exact nearer_ret
  case searchKey | searchDeleted | searchVal => exact nearer_search (by simp)
  case insertAlloc | insertKey | insertDeleted | insertFree | insertFill | insertCas =>
    exact nearer_insert hpos w hfin hat (by simp)
  case linkTop | linkNext | linkSwing | linkKey | linkCas | linkInside =>
    exact nearer_link w hat (by simp)
  case markTop | markNext | markCas => exact nearer_mark w hfin hb ht hat (by simp)
  case removeKey | removeDeleted | removeInc | removeVal | removeFree => exact nearer_remove (by simp)
  case done => cases hres
  case unchanged => cases hres

end step

/-- No step of a thread gives nodes to another. -/
theorem count_step {u : T} (hu : u ≠ t) :
    (step levelmax level t s op l).1.heap.count u = s.heap.count u := by
  have hcas : ∀ {x : Ptr T} {i b r s'} {a : Ref T}, s.cas x i a b = (r, s') →
      s'.heap.count u = s.heap.count u := by
    intro x i b r s' a h
    unfold cas at h
    split at h <;> cases h <;> rfl
  cases l
  case insertAlloc =>
    cases op with
    | insert k v => exact Function.update_of_ne hu _ _
    | _ => rfl
  case insertFill n i x =>
    simp only [step]
    split <;> rfl
  case fraserCas | insertCas | linkSwing | linkCas | markCas =>
    simp only [step]
    split <;> exact hcas ‹_›
  case removeInc =>
    have hinc : ∀ {n x s'}, s.fetchAndInc n = (x, s') → s'.heap.count u = s.heap.count u := by
      intro n x s' h
      cases h
      rfl
    simp only [step]
    split <;> exact hinc ‹_›
  all_goals rfl

/-! ### The runs -/

/-- **Every call returns if its thread goes on alone**, from any point of any
run. -/
theorem fraser_solo [Nontrivial K] (hpos : 0 < levelmax) : (keyed T K V levelmax).Solo := by
  have hfin : ∀ {es c}, (keyed T K V levelmax).Run es c → {x | c.shared.heap.Allocated x}.Finite := by
    intro es c hr
    refine Memory.run_finite heap (fun _ => rfl) (fun {i t s op l s' l'} hs u hu => ?_) hr
    have he : step levelmax (i + 1) t s op l = (s', l') := Option.some.inj hs
    have hcount : (step levelmax (i + 1) t s op l).1.heap.count u = s.heap.count u := count_step hu
    rwa [he] at hcount
  intro es c hr t op l ht
  refine Program.returns_of_phase (fun _ _ _ => True) (phase levelmax) (Fresh levelmax)
    (rank levelmax) ?_ hr ht trivial
  intro es c t op l hr ht hres _
  have hh := (outline hpos fun _ h => h).holds hr
  obtain ⟨-, -, hc, hat⟩ := hh.loc t op l ht
  refine ⟨⟨⟨0, hpos⟩, _, rfl⟩, fun i s' l' hs => ⟨trivial, ?_⟩⟩
  have he : step levelmax (i + 1) t c.shared op l = (s', l') := Option.some.inj hs
  rw [← he]
  exact nearer hpos hh.glob (hfin hr) hc.1 hc.2 hat hres

/-- Three threads, keys 1 to 8, and nodes of up to four levels. -/
theorem fraser_solo_three : (keyed (Fin 3) (Fin 10) ℕ 4).Solo := fraser_solo (by decide)

end SkiplistFraser

end Ascylib
