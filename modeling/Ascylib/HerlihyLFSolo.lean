/-
# Calls of the lock-free skip list that run alone

Every traversal of a level comes to the tail, since no pointer of a level leads
back (`rest_lt`). A CAS can fail only on something that was read before the
other threads stopped, with one exception: the search that `insert` begins with
steps over marked nodes and unlinks none, so the CAS that links the new node at
level 0 fails as long as a marked node is linked between the neighbours of the
key. If the thread that marked it has stopped, nobody unlinks it, and the insert
begins again for ever.

So every call returns alone but an insert that has not linked its node. That one
returns exactly if the key is present or its place lies between two neighbours
without a mark (`Open`), or if the attempt under way has already found what it
needs (`Settled`).

Key theorem: `herlihy_lf_solo`.
-/
import Ascylib.Concur.Solo
import Ascylib.SkiplistHerlihyLF

set_option linter.unusedSectionVars false

namespace Ascylib

open Concur Chain

namespace SkipHeap

variable {T K V : Type*} [DecidableEq T]

/-! ### Levels come to an end -/

variable [LinearOrder K] [BoundedOrder K] {levelmax : ℕ} {S : Set (SkipHeap T K V)}
  {s : SkipHeap T K V} {i : ℕ} {x y : Ptr T}

section rest

variable (w : Wf levelmax S s) (hfin : {x | s.Allocated x}.Finite) (hx : Tall S s i x)

include w hx

theorem tall_of_onward (h : Relation.ReflTransGen (Onward s i) x y) : Tall S s i y := by
  induction h with
  | refl => exact hx
  | @tail y z _ hyz ih =>
    obtain ⟨hyt, rfl⟩ := hyz
    exact w.tower ih hyt

theorem alloc_onward (h : Relation.ReflTransGen (Onward s i) x y) : s.Allocated y :=
  w.base.listed.alloc y (tall_of_onward w hx h).1

include hfin

/-- A pointer leads to fewer nodes. -/
theorem rest_lt (hxt : x ≠ .tail) : rest s i (s.next x i).ptr < rest s i x := by
  refine rest_lt_of_not_back hfin (fun y => alloc_onward w hx) hxt fun h => ?_
  -- a way back would lead to a smaller key, or to an older node
  obtain ⟨d, hd⟩ := w.order
  have hback : ∀ {y}, Relation.ReflTransGen (Onward s i) (s.next x i).ptr y →
      s.key (s.next x i).ptr < s.key y ∨
        s.key (s.next x i).ptr = s.key y ∧ d y ≤ d (s.next x i).ptr := by
    intro y hy
    induction hy with
    | refl => exact Or.inr ⟨rfl, le_rfl⟩
    | @tail y z hxy hyz ih =>
      obtain ⟨hyt, rfl⟩ := hyz
      rcases hd (tall_of_onward w (w.tower hx hxt) hxy) hyt with h1 | ⟨h1, h2⟩
      · exact Or.inl (ih.elim (fun h => h.trans h1) fun h => h.1.trans_lt h1)
      · rw [← h1]
        exact ih.imp_right fun h => ⟨h.1, h2.le.trans h.2⟩
  have h1 := hback h
  rcases hd hx hxt with h2 | ⟨h2, h3⟩
  · rcases h1 with h1 | ⟨h1, -⟩
    · exact absurd h2 (not_lt.mpr h1.le)
    · exact absurd h2 (h1 ▸ lt_irrefl _)
  · rcases h1 with h1 | ⟨-, h1⟩
    · exact absurd h2.symm (ne_of_lt h1)
    · exact absurd h3 (not_lt.mpr h1)

theorem rest_pos : 0 < rest s i x := rest_pos_of_allocated hfin fun _ => alloc_onward w hx

end rest

/-! ### The place of a key -/

/-- The key is present, or two unmarked neighbours lie around its place. -/
def Open (s : SkipHeap T K V) (k : K) : Prop :=
  (∃ x, Lnk s x ∧ s.key x = k ∧ ¬ s.Marked x 0) ∨
    ∃ p q, Lnk s p ∧ s.next p 0 = q.ref ∧ s.key p < k ∧ k < s.key q ∧ ¬ s.Marked q 0

/-- Writes to nodes that are not linked do not matter. -/
theorem open_own {s' : SkipHeap T K V} {k : K} (w : Wf levelmax S s)
    (he : ∀ x, Pub S x → s'.mem x = s.mem x) (hc : ∀ u, s.count u ≤ s'.count u) :
    Open s' k ↔ Open s k := by
  have hl := own_lnk w he hc
  have hlnk : ∀ {x}, Lnk s x → s'.mem x = s.mem x := fun hx => he _ (w.base.pub_lnk hx)
  have hkey : ∀ {x}, Lnk s x → s'.key x = s.key x := fun hx => congrArg SlSimple.key (hlnk hx)
  have hnext : ∀ {x}, Lnk s x → s'.next x 0 = s.next x 0 := fun hx =>
    congrArg (fun n => n.next 0) (hlnk hx)
  refine or_congr (exists_congr fun x => ?_) (exists_congr fun p => exists_congr fun q => ?_)
  · rw [hl]
    refine and_congr_right fun hx => ?_
    rw [hkey hx, Marked, hnext hx]
    rfl
  · rw [hl]
    refine and_congr_right fun hp => ?_
    rw [hnext hp, hkey hp]
    refine and_congr_right fun hpq => and_congr_right fun hk => ?_
    have hq : Lnk s q := by
      have : s.level0.succ p = q := HarrisHeap.succ_of_next hpq
      exact this ▸ hp.next (w.ne_tail_of_lt hk)
    rw [hkey hq, Marked, hnext hq]
    rfl

end SkipHeap

namespace SkiplistHerlihyLF

open SkipHeap
open LinkedListHarris (MarkedPath)

variable {T K V : Type*} [DecidableEq T] [LinearOrder K]

/-! ### What is still so -/

/-- The nodes the search for an insert found have no mark, and only marked
nodes lie between them. -/
def Lists.Apart (s : SkipHeap T K V) (a : Lists T) : Prop :=
  ¬ s.Marked (a.preds 0) 0 ∧ MarkedPath s.level0 (s.level0.succ (a.preds 0)) (a.succs 0) ∧
    ¬ s.Marked (a.succs 0) 0

/-- From level `i` up, `preds` point to `succs`. -/
def Lists.Adjacent (levelmax : ℕ) (s : SkipHeap T K V) (i : ℕ) (a : Lists T) : Prop :=
  ∀ j, i ≤ j → j < levelmax → s.next (a.preds j) j = (a.succs j).ref

def Caller.Adjacent (levelmax : ℕ) (s : SkipHeap T K V) (i : ℕ) : Caller T V → Prop
  | .insert _ _ lists => lists.Adjacent levelmax s i
  | .remove _ _ => True

/-- In an attempt that has begun since the other threads stopped, what the call
has read is still so. -/
def Fresh (levelmax : ℕ) (s : SkipHeap T K V) (op : Call K V) : Pc T V → Prop
  | .noCleanup left i _ => ¬ s.Marked left i
  | .noCleanupMark left right i _ => ¬ s.Marked left i ∧
      (i = 0 → MarkedPath s.level0 (s.level0.succ left) right)
  | .noCleanupKey left right i _ => ¬ s.Marked left i ∧
      (i = 0 → MarkedPath s.level0 (s.level0.succ left) right) ∧ ¬ s.Marked right i
  | .noCleanupNext left right i _ => ¬ s.Marked left i ∧
      (i = 0 → MarkedPath s.level0 (s.level0.succ left) (s.level0.succ right))
  | .found _ lists => (∃ k v, op = .insert k v) → lists.Apart s
  | .insertAlloc lists | .insertFill _ _ lists | .insertCas _ lists => lists.Apart s
  | .linkTop _ i lists | .linkMark _ i lists | .linkCas _ i lists => lists.Adjacent levelmax s i
  | .cleanup c left i => ¬ s.Marked left i ∧ c.Adjacent levelmax s (i + 1)
  | .cleanupNext c left leftNext _ i => s.next left i = leftNext.ref ∧
      c.Adjacent levelmax s (i + 1)
  | .cleanupKey c left leftNext right rightNext i => s.next left i = leftNext.ref ∧
      s.next right i = rightNext.ref ∧ c.Adjacent levelmax s (i + 1)
  | .cleanupCas c left leftNext _ i => s.next left i = leftNext.ref ∧
      c.Adjacent levelmax s (i + 1)
  | .cleanupEq c _ => c.Adjacent levelmax s 0
  | .markCas node i nodeNext => s.next node i = nodeNext
  | _ => True

/-- An insert that has not linked its node yet. -/
def Unlinked (op : Call K V) : Pc T V → Prop
  | .noCleanup _ _ _ | .noCleanupMark _ _ _ _ | .noCleanupKey _ _ _ _ | .noCleanupNext _ _ _ _ |
    .found _ _ | .insertAlloc _ | .insertFill _ _ _ | .insertCas _ _ | .insertFree _ _ =>
    ∃ k v, op = .insert k v
  | _ => False

/-- The attempt under way has passed its last test of a mark, and ends the call:
it found the key's node, or two nodes that are still neighbours. -/
def Settled (s : SkipHeap T K V) (op : Call K V) : Pc T V → Prop
  | .noCleanupKey left right i _ => i = 0 ∧ op.key ≤ s.key right ∧
      (s.key right = op.key ∨ s.next left 0 = right.ref)
  | .found right lists => s.key right = op.key ∨ s.next (lists.preds 0) 0 = right.ref
  | .insertAlloc lists | .insertFill _ _ lists | .insertCas _ lists =>
    s.next (lists.preds 0) 0 = (lists.succs 0).ref
  | _ => False

/-- The insert will find its place. -/
def Good (s : SkipHeap T K V) (op : Call K V) (l : Pc T V) : Prop :=
  Open s op.key ∨ Settled s op l

/-! ### How far a call is from its end -/

def Caller.phase (levelmax : ℕ) : Caller T V → ℕ
  | .insert _ i _ => levelmax + 1 - i
  | .remove _ _ => 1

/-- The phases of a call: to find the place, to link a level or to mark the
levels, to clean up. -/
def phase (levelmax : ℕ) : Pc T V → ℕ
  | .left _ _ | .leftKey _ _ _ | .leftCond _ _ _ | .leftMark _ _ _ | .leftNext _ _ _ |
    .leftEq _ _ _ | .searchEq _ | .searchVal _ => 1
  | .noCleanup _ _ _ | .noCleanupMark _ _ _ _ | .noCleanupKey _ _ _ _ | .noCleanupNext _ _ _ _ |
    .found _ _ | .insertAlloc _ | .insertFill _ _ _ | .insertCas _ _ | .insertFree _ _ =>
    levelmax + 4
  | .linkTop _ i _ | .linkMark _ i _ | .linkCas _ i _ => levelmax + 1 - i
  | .cleanup c _ _ | .cleanupNext c _ _ _ _ | .cleanupKey c _ _ _ _ _ | .cleanupCas c _ _ _ _ |
    .cleanupEq c _ => c.phase levelmax
  | .markTop _ | .markNext _ _ | .markCas _ _ _ => 3
  | .removeVal _ => 2
  | .removeFree _ _ | .done _ | .unchanged _ => 0

/-- Within a phase: the level, the nodes of it that are left, and the point. -/
noncomputable def rank (levelmax : ℕ) (s : SkipHeap T K V) : Pc T V → ℕ ×ₗ ℕ ×ₗ ℕ
  | .left leftPrev i => toLex (i + 1, toLex (rest s i leftPrev, 0))
  | .leftKey _ left i => toLex (i + 1, toLex (rest s i left, 4))
  | .leftCond _ left i => toLex (i + 1, toLex (rest s i left, 3))
  | .leftMark _ left i => toLex (i + 1, toLex (rest s i left, 2))
  | .leftNext _ left i => toLex (i + 1, toLex (rest s i left, 1))
  | .leftEq _ left i => toLex (i + 1, toLex (rest s i left, 0))
  | .searchEq _ => toLex (0, toLex (1, 0))
  | .searchVal _ => toLex (0, toLex (0, 0))
  | .noCleanup left i _ => toLex (i + 1, toLex (rest s i left, 0))
  | .noCleanupMark _ right i _ => toLex (i + 1, toLex (rest s i right, 2))
  | .noCleanupKey _ right i _ => toLex (i + 1, toLex (rest s i right, 1))
  | .noCleanupNext _ right i _ => toLex (i + 1, toLex (rest s i right, 0))
  | .found _ _ => toLex (0, toLex (levelmax + 3, 0))
  | .insertAlloc _ => toLex (0, toLex (levelmax + 2, 0))
  | .insertFill _ i _ => toLex (0, toLex (levelmax + 1 - i, 0))
  | .insertCas _ _ => toLex (0, toLex (0, 0))
  | .insertFree _ _ => toLex (levelmax + 2, toLex (0, 0))
  | .linkTop _ _ _ => toLex (0, toLex (0, 2))
  | .linkMark _ _ _ => toLex (0, toLex (0, 1))
  | .linkCas _ _ _ => toLex (0, toLex (0, 0))
  | .cleanup _ left i => toLex (i + 1, toLex (rest s i left, 0))
  | .cleanupNext _ _ _ right i => toLex (i + 1, toLex (rest s i right, 1))
  | .cleanupKey _ _ _ right rightNext i =>
    toLex (i + 1, toLex (if right = .tail then 0 else rest s i rightNext, 2))
  | .cleanupCas _ _ _ _ i => toLex (i + 1, toLex (0, 0))
  | .cleanupEq _ _ => toLex (0, toLex (1, 0))
  | .markTop node => toLex (s.toplevel node + 1, toLex (0, 0))
  | .markNext _ i => toLex (i + 1, toLex (0, 1))
  | .markCas _ i _ => toLex (i + 1, toLex (0, 0))
  | .removeFree _ _ => toLex (0, toLex (0, 1))
  | .removeVal _ | .done _ | .unchanged _ => toLex (0, toLex (0, 0))

/-! ### Every step brings a call nearer to its end -/

variable [BoundedOrder K] [Zero V] {levelmax : ℕ} {t : T} {S W : Set (SkipHeap T K V)}
  {s : SkipHeap T K V} {op : Call K V} {l l' : Pc T V} {level : ℕ}

/-- A step brings the call nearer to its end. -/
abbrev Nearer (levelmax : ℕ) (s : SkipHeap T K V) (op : Call K V) (l : Pc T V)
    (q : SkipHeap T K V × Pc T V) : Prop :=
  Program.Nearer (phase levelmax) (Fresh levelmax) (rank levelmax) s op l q

section step

variable (w : Wf levelmax S s) (hW : W ⊆ S) (hfin : {x | s.Allocated x}.Finite)
  (hat : At levelmax t S W s op l)

include w hfin hat

theorem nearer_left (hl : (∃ a i, l = .left a i) ∨ (∃ a b i, l = .leftKey a b i) ∨
    (∃ a b i, l = .leftCond a b i) ∨ (∃ a b i, l = .leftMark a b i) ∨
    (∃ a b i, l = .leftNext a b i) ∨ (∃ a b i, l = .leftEq a b i) ∨ (∃ a, l = .searchEq a) ∨
    ∃ a, l = .searchVal a) : Nearer levelmax s op l (step levelmax level t s op l) := by
  rcases hl with ⟨a, i, rfl⟩ | ⟨a, b, i, rfl⟩ | ⟨a, b, i, rfl⟩ | ⟨a, b, i, rfl⟩ | ⟨a, b, i, rfl⟩ |
    ⟨a, b, i, rfl⟩ | ⟨a, rfl⟩ | ⟨a, rfl⟩
  · have hlt := rest_lt w hfin hat.2.1 (hat.2.ne_tail w)
    exact .on rfl id (lex_right (lex_left hlt))
  · simp only [step]
    split
    · exact .on rfl id (lex_right (lex_right (by decide)))
    · exact .on rfl id (lex_right (lex_right (by decide)))
  · simp only [step]
    split
    · exact .on rfl id (lex_right (lex_right (by decide)))
    · exact .on rfl id (lex_right (lex_right (by decide)))
  · simp only [step]
    split
    · exact .on rfl id (lex_right (lex_right (by decide)))
    · exact .on rfl id (lex_right (lex_right (by decide)))
  · have hlt := rest_lt w hfin hat.2.2.1 hat.2.2.2.1
    exact .on rfl id (lex_right (lex_left hlt))
  · simp only [step]
    split
    · exact .on rfl id (lex_left i.succ_pos)
    · cases i with
      | zero => exact .on rfl id (lex_left one_pos)
      | succ i => exact .on rfl id (lex_left (Nat.lt_succ_self _))
  · simp only [step]
    split
    · exact .on rfl id (lex_right (lex_left one_pos))
    · exact Or.inl one_pos
  · exact Or.inl one_pos

omit hfin hat in
/-- A node without a mark has none further down. -/
theorem not_marked_down {x : Ptr T} {i : ℕ} (hx : Tall S s (i + 1) x) (hm : ¬ s.Marked x (i + 1)) :
    ¬ s.Marked x i := fun h => hm (w.marks hx.1 h i.le_succ hx.2)

theorem nearer_no_cleanup (hl : (∃ a i x, l = .noCleanup a i x) ∨
    (∃ a b i x, l = .noCleanupMark a b i x) ∨ (∃ a b i x, l = .noCleanupKey a b i x) ∨
    (∃ a b i x, l = .noCleanupNext a b i x) ∨ ∃ b x, l = .found b x) :
    Nearer levelmax s op l (step levelmax level t s op l) := by
  rcases hl with ⟨a, i, x, rfl⟩ | ⟨a, b, i, x, rfl⟩ | ⟨a, b, i, x, rfl⟩ | ⟨a, b, i, x, rfl⟩ |
    ⟨b, x, rfl⟩
  · have hlt := rest_lt w hfin hat.1.1 (hat.1.ne_tail w)
    refine .on rfl (fun hf => ⟨hf, ?_⟩) (lex_right (lex_left hlt))
    rintro rfl
    exact .refl
  · by_cases hm : s.Marked b i
    · simp only [step, isMarked, show (s.next b i).mark = true from hm]
      refine .on rfl (fun hf => ⟨hf.1, ?_⟩) (lex_right (lex_right (by decide)))
      rintro rfl
      exact (hf.2 rfl).tail ⟨hm, rfl⟩
    · simp only [step, isMarked, show (s.next b i).mark = false by simpa [Marked] using hm]
      exact .on rfl (fun hf => ⟨hf.1, hf.2, hm⟩) (lex_right (lex_right (by decide)))
  · obtain ⟨h1, -, -, -, h5⟩ := hat
    by_cases hle : op.key ≤ s.key b
    · simp only [step, hle, if_true]
      cases i with
      | zero =>
        refine .on rfl ?_ (lex_left one_pos)
        rintro ⟨h6, h7, h8⟩ ⟨k, v, rfl⟩
        simp only [Lists.Apart, Lists.record, Lists.set, Function.update_self]
        exact ⟨h6, h7 rfl, h8⟩
      | succ i => exact .on rfl (fun hf => not_marked_down w h1.1 hf.1) (lex_left (Nat.lt_succ_self _))
    · simp only [step, hle, if_false]
      refine .on rfl (fun hf => ⟨hf.2.2, ?_⟩) (lex_right (lex_right (by decide)))
      rintro rfl
      exact .refl
  · have hlt := rest_lt w hfin hat.2.1.1 hat.2.1.2.1
    refine .on rfl (fun hf => ⟨hf.1, ?_⟩) (lex_right (lex_left hlt))
    rintro rfl
    exact hf.2 rfl
  · obtain ⟨-, -, -, -, h5, -⟩ := hat
    rcases h5 with ⟨⟨k, v, rfl⟩, -⟩ | ⟨k, rfl⟩
    · simp only [step]
      split
      · exact Or.inl (by simp [phase])
      · exact .on rfl (fun hf => hf ⟨k, v, rfl⟩) (lex_right (lex_left (Nat.lt_succ_self _)))
    · simp only [step]
      split <;> exact Or.inl (by simp [phase])

omit hfin hat in
theorem apart_own {s' : SkipHeap T K V} {k : K} {x : Lists T} (ha : Act t S s s')
    (he : ∀ y, Pub S y → s'.mem y = s.mem y) (h : x.Absent levelmax S s k) (hf : x.Apart s) :
    x.Apart s' := by
  obtain ⟨⟨⟨⟨hp, -⟩, -⟩, ⟨hq, -⟩, -⟩, h1, h2⟩ := And.intro (h.1 0 le_rfl h.2.1) hf
  obtain ⟨h2, h3⟩ := h2
  have hnext : ∀ y, Pub S y → s'.next y 0 = s.next y 0 := fun y hy =>
    congrArg (fun n => n.next 0) (he y hy)
  have hsucc : s'.level0.succ (x.preds 0) = s.level0.succ (x.preds 0) :=
    congrArg Ref.ptr (hnext _ hp)
  have hpt := w.ne_tail_of_lt (h.1 0 le_rfl h.2.1).1.2
  refine ⟨by rw [Marked, hnext _ hp]; exact h1, ?_, by rw [Marked, hnext _ hq]; exact h3⟩
  rw [hsucc]
  exact h2.step w.base (w.base.next _ hp hpt).1 (ha.keeps w).base

omit hfin hat in
/-- The nodes a fresh search found are neighbours if the place is open. -/
theorem apart_next {k : K} {x : Lists T} (h : x.Absent levelmax S s k) (hf : x.Apart s)
    (ho : Open s k) : s.next (x.preds 0) 0 = (x.succs 0).ref := by
  obtain ⟨⟨hp, hpk⟩, -, -⟩ := h.1 0 le_rfl h.2.1
  obtain ⟨h1, h2, h3⟩ := hf
  have hpt := w.ne_tail_of_lt hpk
  have hlp : Lnk s (x.preds 0) := w.lnk hp h1
  have hls : Lnk s (s.level0.succ (x.preds 0)) := hlp.next hpt
  -- an unmarked linked node with a smaller key, or with the key, is not past `preds[0]`
  have hleft : ∀ {y}, Lnk s y → ¬ s.Marked y 0 → s.key y ≤ k → s.key y ≤ s.key (x.preds 0) := by
    intro y hy hm hk
    refine (w.base.sorted.le_or_next_le hlp hpt hy).resolve_right fun h5 => ?_
    exact hm ((h2.lnk w.base hls).2 y hy h5 (hk.trans_lt h.2.2))
  rcases ho with ⟨y, hy, rfl, hm⟩ | ⟨p, q, hlp', hpq, h4, h5, hqm⟩
  · exact absurd (hleft hy hm le_rfl) (not_le.mpr hpk)
  · have hle := hleft hlp' (not_marked_of_next hpq) h4.le
    have hpt' := w.ne_tail_of_lt h4
    have hge : s.key (x.preds 0) ≤ s.key p := by
      refine (w.base.sorted.le_or_next_le hlp' hpt' hlp).resolve_right fun h6 => ?_
      rw [show s.level0.succ p = q from HarrisHeap.succ_of_next hpq] at h6
      exact absurd (h5.trans_le h6) (not_lt.mpr hpk.le)
    obtain rfl : p = x.preds 0 := w.base.sorted.inj hlp' hlp (le_antisymm hle hge)
    rw [show s.level0.succ (x.preds 0) = q from HarrisHeap.succ_of_next hpq] at h2
    rcases h2.cases_head with rfl | ⟨z, ⟨hz, -⟩, -⟩
    · exact hpq
    · exact absurd hz hqm

theorem nearer_insert (hl : (∃ x, l = .insertAlloc x) ∨ (∃ n i x, l = .insertFill n i x) ∨
    ∃ n x, l = .insertFree n x) : Nearer levelmax s op l (step levelmax level t s op l) := by
  rcases hl with ⟨x, rfl⟩ | ⟨n, i, x, rfl⟩ | ⟨n, x, rfl⟩
  · obtain ⟨⟨k, v, rfl⟩, h2⟩ := hat
    obtain ⟨hact, -⟩ := allocate_act w t k v level x.succs
    refine .on rfl (fun hf => ?_) (lex_right (lex_left (Nat.lt_succ_self _)))
    exact apart_own w hact (fun y hy => mem_allocate_of_pub w t k v level hy) h2 hf
  · obtain ⟨k, v, m, rfl, h1, h2, h3, h4, h5⟩ := hat
    simp only [step, h4.top]
    split
    · rename_i hi
      obtain ⟨hact, -⟩ := h4.fill w
      refine .on rfl (fun hf => ?_) (lex_right (lex_left ?_))
      · exact apart_own w hact (fun y hy => h4.mem_setNext hy i _) h5 hf
      · show levelmax + 1 - (i + 1) < levelmax + 1 - i
        omega
    · refine .on rfl id (lex_right (lex_left ?_))
      show 0 < levelmax + 1 - i
      omega
  · obtain ⟨k, v, rfl⟩ := hat
    refine .on rfl (fun _ => w.head_mark _) (lex_left ?_)
    show levelmax - 1 + 1 < levelmax + 2
    omega

/-- The CAS that links the node at level 0 succeeds in a fresh attempt. -/
theorem nearer_insertCas {n : Ptr T} {x : Lists T} (hl : l = .insertCas n x)
    (ho : Good s op l) : Nearer levelmax s op l (step levelmax level t s op l) := by
  subst hl
  obtain ⟨k, v, m, rfl, h2, h3, h4, h5⟩ := hat
  rcases hc : s.cas (x.preds 0) 0 (unsetMark (x.succs 0).ref) n.ref with ⟨⟨⟩, s'⟩
  · simp only [step, hc]
    have hne := next_ne_of_cas hc
    refine .again rfl (fun hf => hne ?_) trivial
    exact ho.elim (fun h => apart_next w h5 hf h) id
  · simp only [step, hc]
    exact Or.inl (show levelmax + 1 - 1 < levelmax + 4 by omega)

theorem nearer_link (hl : (∃ n i x, l = .linkTop n i x) ∨ (∃ n i x, l = .linkMark n i x) ∨
    ∃ n i x, l = .linkCas n i x) : Nearer levelmax s op l (step levelmax level t s op l) := by
  rcases hl with ⟨n, i, x, rfl⟩ | ⟨n, i, x, rfl⟩ | ⟨n, i, x, rfl⟩
  · obtain ⟨-, -, -, h4, -, -, h7⟩ := hat
    simp only [step]
    split
    · exact .on rfl id (lex_right (lex_right (by decide)))
    · exact Or.inl (show 0 < levelmax + 1 - i by omega)
  · obtain ⟨⟨-, -, -, h4, -, -, h7⟩, -⟩ := hat
    simp only [step]
    split
    · exact Or.inl (show 0 < levelmax + 1 - i by omega)
    · exact .on rfl id (lex_right (lex_right (by decide)))
  · obtain ⟨⟨-, -, -, h4, -, -, -⟩, h7⟩ := hat
    rcases hc : s.cas (x.preds i) i (x.succs i).ref n.ref with ⟨⟨⟩, s'⟩
    · simp only [step, hc]
      have hne := next_ne_of_cas hc
      rw [cas_false hc]
      refine .again rfl (fun hf => hne (hf i le_rfl (h7.trans_le h4))) ⟨w.head_mark _, ?_⟩
      intro j hij hj
      omega
    · simp only [step, hc]
      exact Or.inl (show levelmax + 1 - (i + 1) < levelmax + 1 - i by omega)

omit w hfin hat in
theorem adjacent_record {c : Caller T V} {left right : Ptr T} {i : ℕ}
    (hn : s.next left i = right.ref) (h : c.Adjacent levelmax s (i + 1)) :
    (c.record i left right).Adjacent levelmax s i := by
  cases c with
  | insert n j x =>
    intro j' hij hj
    rcases hij.eq_or_lt with rfl | hij
    · simpa only [Lists.set, Function.update_self] using hn
    · simp only [Lists.set, Function.update_of_ne hij.ne']
      exact h j' hij hj
  | remove n r => trivial

omit hfin hat in
/-- `herlihy_search` goes on below a level whose pointer leads to `right`. -/
theorem nearer_cleanupLevel {s' : SkipHeap T K V} {c : Caller T V} {left right : Ptr T} {i b p : ℕ}
    (hx : Tall S s i left) (hp : phase levelmax l = c.phase levelmax)
    (hr : rank levelmax s l = toLex (i + 1, toLex (b, p)))
    (hf : Fresh levelmax s op l → s'.next left i = right.ref ∧ c.Adjacent levelmax s' (i + 1) ∧
      ∀ j, i = j + 1 → ¬ s'.Marked left j) :
    Nearer levelmax s op l (s', cleanupLevel c left right i) := by
  have hphase : (c.record i left right).phase levelmax = c.phase levelmax := by cases c <;> rfl
  cases i with
  | zero =>
    refine .on (by rw [hp, ← hphase]; rfl) (fun h => ?_) ?_
    · exact adjacent_record (hf h).1 (hf h).2.1
    · rw [hr]
      exact lex_left one_pos
  | succ i =>
    refine .on (by rw [hp, ← hphase]; rfl) (fun h => ⟨(hf h).2.2 i rfl, ?_⟩) ?_
    · exact adjacent_record (hf h).1 (hf h).2.1
    · rw [hr]
      exact lex_left (Nat.lt_succ_self _)

omit w hfin hat in
/-- The head is a fresh start. -/
theorem fresh_cleanup {c : Caller T V} (hm : ¬ s.Marked .head (levelmax - 1)) :
    Fresh levelmax s op (.cleanup c .head (levelmax - 1)) := by
  refine ⟨hm, ?_⟩
  cases c with
  | insert n i x =>
    intro j hij hj
    omega
  | remove n r => trivial

omit w hfin hat in
theorem adjacent_setNext {c : Caller T V} {x : Ptr T} {r : Ref T} {i : ℕ}
    (h : c.Adjacent levelmax s (i + 1)) : c.Adjacent levelmax (s.setNext x i r) (i + 1) := by
  cases c with
  | insert n m a =>
    intro j hij hj
    rw [next_setNext_of_ne s x _ i j r (Or.inr (by omega))]
    exact h j hij hj
  | remove n v => trivial

theorem nearer_cleanup (hl : (∃ c a i, l = .cleanup c a i) ∨ (∃ c a b x i, l = .cleanupNext c a b x i) ∨
    (∃ c a b x y i, l = .cleanupKey c a b x y i) ∨ (∃ c a b x i, l = .cleanupCas c a b x i) ∨
    ∃ c x, l = .cleanupEq c x) : Nearer levelmax s op l (step levelmax level t s op l) := by
  have hdown : ∀ {a : Ptr T} {i}, Tall S s i a → ¬ s.Marked a i → ∀ j, i = j + 1 → ¬ s.Marked a j := by
    rintro a i hx hm j rfl
    exact not_marked_down w hx hm
  rcases hl with ⟨c, a, i, rfl⟩ | ⟨c, a, b, x, i, rfl⟩ | ⟨c, a, b, x, y, i, rfl⟩ |
    ⟨c, a, b, x, i, rfl⟩ | ⟨c, x, rfl⟩
  · obtain ⟨-, h2, h3⟩ := hat
    by_cases hm : s.Marked a i
    · simp only [step, isMarked, show (s.next a i).mark = true from hm, if_true]
      exact .again rfl (fun hf => hf.1 hm) (fresh_cleanup (w.head_mark _))
    · simp only [step, isMarked, show (s.next a i).mark = false by simpa [Marked] using hm]
      have hlt := rest_lt w hfin h2 (w.ne_tail_of_lt h3)
      exact .on rfl (fun hf => ⟨next_eq_ref hm, hf.2⟩) (lex_right (lex_left hlt))
  · obtain ⟨-, -, -, h4, -⟩ := hat
    by_cases hm : s.Marked x i
    · simp only [step, isMarked, show (s.next x i).mark = true from hm, if_true]
      have hlt := rest_lt w hfin h4 fun he => w.tail_mark i (he ▸ hm)
      exact .on rfl id (lex_right (lex_left hlt))
    · simp only [step, isMarked, show (s.next x i).mark = false by simpa [Marked] using hm]
      refine .on rfl (fun hf => ⟨hf.1, next_eq_ref hm, hf.2⟩) (lex_right (lex_left ?_))
      by_cases hxt : x = .tail
      · rw [if_pos hxt]
        exact rest_pos w hfin h4
      · rw [if_neg hxt]
        exact rest_lt w hfin h4 hxt
  · obtain ⟨-, h2, -, -, -, h6⟩ := hat
    by_cases hle : op.key ≤ s.key x
    · by_cases hbx : b = x
      · simp only [step, hle, if_true, hbx, ne_eq, not_true_eq_false, if_false]
        subst hbx
        exact nearer_cleanupLevel w h2.1 rfl rfl fun hf =>
          ⟨hf.1, hf.2.2, hdown h2.1 (not_marked_of_next hf.1)⟩
      · simp only [step, hle, if_true, ne_eq, hbx, not_false_eq_true]
        refine .on rfl (fun hf => ⟨hf.1, hf.2.2⟩) (lex_right ?_)
        rcases Nat.eq_zero_or_pos (if x = .tail then 0 else rest s i y) with h0 | h0
        · rw [h0]
          exact lex_right (by decide)
        · exact lex_left h0
    · simp only [step, hle, if_false]
      have hxt := w.ne_tail_of_lt (not_le.mp hle)
      refine .on rfl (fun hf => hf.2) (lex_right ?_)
      rw [if_neg hxt]
      exact lex_right (by decide)
  · obtain ⟨-, h2, -⟩ := hat
    rcases hc : s.cas a i b.ref x.ref with ⟨⟨⟩, s'⟩
    · simp only [step, hc]
      have hne := next_ne_of_cas hc
      rw [cas_false hc]
      exact .again rfl (fun hf => hne hf.1) (fresh_cleanup (w.head_mark _))
    · simp only [step, hc]
      obtain ⟨hn, rfl⟩ := cas_true hc
      refine nearer_cleanupLevel w h2.1 rfl rfl fun hf =>
        ⟨next_setNext_self s a i _, adjacent_setNext hf.2, ?_⟩
      rintro j rfl
      rw [Marked, next_setNext_of_ne s a a (j + 1) j _ (Or.inr j.lt_succ_self.ne)]
      exact not_marked_down w h2.1 (not_marked_of_next hn)
  · cases c with
    | insert n i lists =>
      exact .on rfl (fun hf j _ hj => hf j (Nat.zero_le j) hj) (lex_right (lex_left one_pos))
    | remove n r => exact Or.inl one_pos

theorem nearer_remove (hl : (∃ n, l = .markTop n) ∨ (∃ n i, l = .markNext n i) ∨
    (∃ n i r, l = .markCas n i r) ∨ (∃ n, l = .removeVal n) ∨ ∃ n r, l = .removeFree n r) :
    Nearer levelmax s op l (step levelmax level t s op l) := by
  rcases hl with ⟨n, rfl⟩ | ⟨n, i, rfl⟩ | ⟨n, i, r, rfl⟩ | ⟨n, rfl⟩ | ⟨n, r, rfl⟩
  · obtain ⟨m, hm⟩ := Nat.exists_eq_succ_of_ne_zero hat.2.2.2.ne'
    simp only [step, hm]
    refine .on rfl (fun _ => trivial) (lex_left ?_)
    rw [hm]
    exact Nat.lt_succ_self _
  · by_cases hm : s.Marked n i
    · simp only [step, isMarked, show (s.next n i).mark = true from hm, if_true]
      cases i with
      | zero => exact Or.inl (show 0 < 3 by decide)
      | succ i => exact .on rfl (fun _ => trivial) (lex_left (Nat.lt_succ_self _))
    · simp only [step, isMarked, show (s.next n i).mark = false by simpa [Marked] using hm]
      exact .on rfl (fun _ => rfl) (lex_right (lex_right one_pos))
  · obtain ⟨-, -, -, h4⟩ := hat
    obtain ⟨q, m⟩ := r
    obtain rfl : m = false := h4
    rcases hc : s.cas n i (unsetMark ⟨q, false⟩) (setMark ⟨q, false⟩) with ⟨⟨⟩, s'⟩
    · simp only [step, hc]
      exact .again rfl (fun hf => next_ne_of_cas hc hf) trivial
    · simp only [step, hc]
      cases i with
      | zero => exact Or.inl (show 2 < 3 by decide)
      | succ i => exact .on rfl (fun _ => trivial) (lex_left (Nat.lt_succ_self _))
  · exact Or.inl (show 1 < 2 by decide)
  · exact .on rfl id (lex_right (lex_right one_pos))

/-- **Every step brings a call that runs alone nearer to its end**, if it has
linked its node or will find its place. -/
theorem nearer (ho : Unlinked op l → Good s op l) (hres : result l = none) :
    Nearer levelmax s op l (step levelmax level t s op l) := by
  cases l
  case left | leftKey | leftCond | leftMark | leftNext | leftEq | searchEq | searchVal =>
    exact nearer_left w hfin hat (by simp)
  case noCleanup | noCleanupMark | noCleanupKey | noCleanupNext | found =>
    exact nearer_no_cleanup w hfin hat (by simp)
  case insertAlloc | insertFill | insertFree => exact nearer_insert w hfin hat (by simp)
  case insertCas n x =>
    obtain ⟨k, v, m, rfl, -⟩ := id hat
    exact nearer_insertCas w hfin hat rfl (ho ⟨k, v, rfl⟩)
  case linkTop | linkMark | linkCas => exact nearer_link w hfin hat (by simp)
  case cleanup | cleanupNext | cleanupKey | cleanupCas | cleanupEq =>
    exact nearer_cleanup w hfin hat (by simp)
  case markTop | markNext | markCas | removeVal | removeFree => exact nearer_remove w hfin hat (by simp)
  case done => cases hres
  case unchanged => cases hres

omit w hfin hat in
theorem Unlinked.phase_eq (hu : Unlinked op l) : phase levelmax l = levelmax + 4 := by
  cases l
  case noCleanup | noCleanupMark | noCleanupKey | noCleanupNext | found | insertAlloc |
      insertFill | insertCas | insertFree => rfl
  all_goals exact hu.elim

/-- Until it links its node, an insert does not change what is before it. -/
theorem unlinked_step (hres : result l = none)
    (hu : Unlinked op (step levelmax level t s op l).2) :
    Unlinked op l ∧ (Good (step levelmax level t s op l).1 op (step levelmax level t s op l).2 ↔
      Good s op l) := by
  have hins : ∃ k v, op = .insert k v := by
    generalize (step levelmax level t s op l).2 = l' at hu
    cases l' <;> first | exact hu | exact hu.elim
  -- no step leads back to an earlier phase
  have hback : ¬ Unlinked op l → phase levelmax l < levelmax + 4 → False := by
    intro hn hlt
    have hlast : phase levelmax (step levelmax level t s op l).2 = levelmax + 4 := hu.phase_eq
    have hnear : Nearer levelmax s op l (step levelmax level t s op l) :=
      nearer w hfin hat (fun h => absurd h hn) hres
    rcases hnear with h | ⟨h, -⟩ <;> omega
  have hc : ∀ c : Caller T V, c.phase levelmax < levelmax + 4 := by
    rintro (⟨n, i, x⟩ | ⟨n, r⟩) <;> simp only [Caller.phase] <;> omega
  cases l
  case noCleanup | noCleanupNext | insertFree => exact ⟨hins, Iff.rfl⟩
  case noCleanupMark a b i x =>
    refine ⟨hins, ?_⟩
    obtain ⟨h1, h2, -⟩ := hat
    by_cases hm : s.Marked b i
    · simp only [step, isMarked, show (s.next b i).mark = true from hm]
      exact Iff.rfl
    · simp only [step, isMarked, show (s.next b i).mark = false by simpa [Marked] using hm]
      refine ⟨fun h => Or.inl (h.elim id ?_), fun h => Or.inl (h.resolve_right id)⟩
      -- a node without a mark is linked now
      rintro ⟨rfl, hle, h⟩
      have hlb : Lnk s b := w.lnk h2.1 hm
      by_cases he : s.key b = op.key
      · exact Or.inl ⟨b, hlb, he, hm⟩
      · have hn := h.resolve_left he
        exact Or.inr ⟨a, b, w.lnk h1.1 (not_marked_of_next hn), hn, h1.2.1,
          lt_of_le_of_ne hle (Ne.symm he), hm⟩
  case noCleanupKey a b i x =>
    refine ⟨hins, ?_⟩
    obtain ⟨k, v, rfl⟩ := hins
    by_cases hle : (Call.insert k v).key ≤ s.key b
    · simp only [step, hle, if_true]
      cases i with
      | zero =>
        refine or_congr_right ?_
        simp only [noCleanupLevel, Settled, Lists.record, Lists.set, Function.update_self, hle,
          true_and]
      | succ i => exact or_congr_right ⟨False.elim, fun h => absurd h.1 i.succ_ne_zero⟩
    · simp only [step, hle, if_false]
      exact or_congr_right ⟨False.elim, fun h => absurd h.2.1 hle⟩
  case found b x =>
    obtain ⟨k, v, rfl⟩ := hins
    refine ⟨⟨k, v, rfl⟩, ?_⟩
    obtain ⟨-, -, -, -, -, h6⟩ := hat
    by_cases he : s.key b = (Call.insert k v).key
    · rw [step, if_pos he] at hu
      exact hu.elim
    · rw [step, if_neg he]
      refine or_congr_right ?_
      simp only [Settled, h6, he, false_or]
  case insertAlloc x =>
    obtain ⟨⟨k, v, rfl⟩, h2⟩ := hat
    have hm := fun y hy => mem_allocate_of_pub (x := y) w t k v level hy
    refine ⟨⟨k, v, rfl⟩, or_congr (open_own w hm (Memory.count_le_allocate s _ t)) ?_⟩
    simp only [step, Settled, SkipHeap.next, hm _ (h2.1 0 le_rfl h2.2.1).1.1.1]
  case insertFill n i x =>
    obtain ⟨k, v, m, rfl, -, -, -, h4, h5⟩ := hat
    refine ⟨⟨k, v, rfl⟩, ?_⟩
    have hm := fun y hy => h4.mem_setNext (y := y) hy i (x.succs i).ref
    simp only [step]
    split
    · refine or_congr (open_own w hm fun _ => le_rfl) ?_
      simp only [Settled, SkipHeap.next, hm _ (h5.1 0 le_rfl h5.2.1).1.1.1]
    · exact Iff.rfl
  case insertCas n x =>
    refine ⟨hins, ?_⟩
    rcases hcas : s.cas (x.preds 0) 0 (unsetMark (x.succs 0).ref) n.ref with ⟨⟨⟩, s'⟩
    · simp only [step, hcas]
      have hne := next_ne_of_cas hcas
      rw [cas_false hcas]
      exact or_congr_right ⟨False.elim, fun h => absurd h hne⟩
    · simp only [step, hcas] at hu
      exact hu.elim
  case left | leftKey | leftCond | leftMark | leftNext | leftEq | searchEq | searchVal | markTop |
      markNext | markCas | removeVal | removeFree =>
    exact (hback id (by simp [phase])).elim
  case linkTop | linkMark | linkCas => exact (hback id (by simp only [phase]; omega)).elim
  case cleanup c _ _ | cleanupNext c _ _ _ _ | cleanupKey c _ _ _ _ _ | cleanupCas c _ _ _ _ |
      cleanupEq c _ => exact (hback id (hc c)).elim
  case done => cases hres
  case unchanged => cases hres

omit w hfin hat in
/-- An insert that will not find its place goes round and round. -/
theorem stuck_step (hu : Unlinked op l) (ho : ¬ Good s op l) :
    Unlinked op (step levelmax level t s op l).2 := by
  have hins : ∃ k v, op = .insert k v := by
    cases l <;> first | exact hu | exact hu.elim
  cases l
  case noCleanup | noCleanupNext | insertFree => exact hins
  case noCleanupMark a b i x =>
    simp only [step]
    split <;> exact hins
  case noCleanupKey a b i x =>
    simp only [step]
    split
    · cases i <;> exact hins
    · exact hins
  case found b x =>
    obtain ⟨k, v, rfl⟩ := hins
    rw [step, if_neg fun he => ho (Or.inr (Or.inl he))]
    exact ⟨k, v, rfl⟩
  case insertAlloc x =>
    obtain ⟨k, v, rfl⟩ := hins
    exact ⟨k, v, rfl⟩
  case insertFill n i x =>
    simp only [step]
    split <;> exact hins
  case insertCas n x =>
    rcases hc : s.cas (x.preds 0) 0 (unsetMark (x.succs 0).ref) n.ref with ⟨⟨⟩, s'⟩
    · simp only [step, hc]
      exact hins
    · exact absurd (Or.inr (cas_true hc).1) ho
  all_goals exact hu.elim

end step

/-- No step of a thread gives nodes to another. -/
theorem count_step {u : T} (hu : u ≠ t) : (step levelmax level t s op l).1.count u = s.count u := by
  have hcas : ∀ {x : Ptr T} {i b r s'} {a : Ref T}, s.cas x i a b = (r, s') → s'.count u = s.count u := by
    intro x i b r s' a h
    unfold cas at h
    split at h <;> cases h <;> rfl
  cases l
  case insertAlloc x =>
    cases op with
    | insert k v => exact Function.update_of_ne hu _ _
    | _ => rfl
  case insertFill n i x =>
    simp only [step]
    split <;> rfl
  case insertCas | linkCas | cleanupCas | markCas =>
    simp only [step]
    split <;> exact hcas ‹_›
  case found =>
    simp only [step]
    split <;> rfl
  all_goals rfl

/-! ### The runs -/

section run

variable [Nontrivial K] (hpos : 0 < levelmax)
  {es : Trace T (Call K V) (Answer V) (SkipHeap T K V) (Pc T V)}
  {c : Config T (Call K V) (SkipHeap T K V) (Pc T V)}
  (hr : Program.Run { program T K V levelmax with pre := Keyed } es c)

include hr

theorem finite_of_run : {x | c.shared.Allocated x}.Finite :=
  Memory.run_finite id (fun _ => rfl) (fun {i t s op l s' l'} hs u hu => by
    have he : step levelmax (i + 1) t s op l = (s', l') := Option.some.inj hs
    have hcount : (step levelmax (i + 1) t s op l).1.count u = s.count u := count_step hu
    rwa [he] at hcount) hr

include hpos

theorem returns (ht : c.threads t = some (op, l)) (ho : Unlinked op l → Good c.shared op l) :
    Program.Returns { program T K V levelmax with pre := Keyed } t op c.shared l := by
  refine Program.returns_of_phase (fun s op l => Unlinked op l → Good s op l) (phase levelmax)
    (Fresh levelmax) (rank levelmax) ?_ hr ht ho
  intro es c t op l hr ht hres ho
  have hh := (outline hpos fun _ h => h).holds hr
  obtain ⟨hW, -, -, hat⟩ := hh.loc t op l ht
  refine ⟨⟨⟨0, hpos⟩, _, rfl⟩, fun i s' l' hs => ?_⟩
  have he : step levelmax (i + 1) t c.shared op l = (s', l') := Option.some.inj hs
  have hn : Nearer levelmax c.shared op l (step levelmax (i + 1) t c.shared op l) :=
    nearer hh.glob (finite_of_run hr) hat ho hres
  rw [he] at hn
  refine ⟨fun h => ?_, hn⟩
  have hu : Unlinked op (step levelmax (i + 1) t c.shared op l).2 := by rwa [he]
  have hgood := (unlinked_step hh.glob (finite_of_run hr) hat hres hu).2
  rw [he] at hgood
  exact hgood.mpr (ho (unlinked_step hh.glob (finite_of_run hr) hat hres hu).1)

theorem not_returns (ht : c.threads t = some (op, l)) (hu : Unlinked op l)
    (ho : ¬ Good c.shared op l) :
    ¬ Program.Returns { program T K V levelmax with pre := Keyed } t op c.shared l := by
  refine Program.Returns.not_of_stuck (fun s l => ∃ es c,
    Program.Run { program T K V levelmax with pre := Keyed } es c ∧ c.shared = s ∧
    c.threads t = some (op, l) ∧ Unlinked op l ∧ ¬ Good s op l) ?_ ⟨es, c, hr, rfl, ht, hu, ho⟩
  rintro s l ⟨es, c, hr, rfl, ht, hu, ho⟩
  have hh := (outline hpos fun _ h => h).holds hr
  obtain ⟨-, -, -, hat⟩ := hh.loc t _ l ht
  have hres : result l = none := by cases l <;> first | rfl | exact hu.elim
  refine ⟨hres, fun i s' l' hs => ?_⟩
  have he : step levelmax (i + 1) t c.shared op l = (s', l') := Option.some.inj hs
  have h1 : Unlinked op (step levelmax (i + 1) t c.shared op l).2 := stuck_step hu ho
  have h2 := unlinked_step hh.glob (finite_of_run hr) hat hres h1
  rw [he] at h1 h2
  obtain ⟨es', c', hr', rfl, ht'⟩ := hr.tau ht hres hs
  exact ⟨es', c', hr', rfl, ht', h1, fun h => ho (h2.2.mp h)⟩

end run

/-- **Which calls return alone**: all but an insert that has not linked its
node, whose place is not open, and that has not found what it needs either. -/
theorem herlihy_lf_solo [Nontrivial K] (hpos : 0 < levelmax) :
    Program.SoloIff { program T K V levelmax with pre := Keyed }
      (fun s op l => Unlinked op l → Open s op.key ∨ Settled s op l) := by
  refine fun es c hr t op l ht => ⟨fun h hu => ?_, fun ho => returns hpos hr ht ho⟩
  by_contra ho
  exact not_returns hpos hr ht hu ho h

/-- Three threads, keys 1 to 8, and nodes of up to four levels. -/
theorem herlihy_lf_solo_three :
    Program.SoloIff { program (Fin 3) (Fin 10) ℕ 4 with pre := Keyed }
      (fun s op l => Unlinked op l → Open s op.key ∨ Settled s op l) :=
  herlihy_lf_solo (by decide)

/-! ### An insert that never returns -/

/-- A marked node is all there is between the sentinels. -/
theorem not_open {k : K} {a : Ptr T} (h1 : s.next .head 0 = a.ref)
    (h2 : s.next a 0 = ⟨.tail, true⟩) (hk : s.key .head < k) (ht : k < s.key .tail) : ¬ Open s k := by
  have hlnk : ∀ {x}, Lnk s x → x = .head ∨ x = a ∨ x = .tail := by
    intro x hx
    induction hx with
    | refl => exact Or.inl rfl
    | @tail y z _ hyz ih =>
      obtain ⟨hne, rfl⟩ := hyz
      rcases ih with rfl | rfl | rfl
      · exact Or.inr (Or.inl (congrArg Ref.ptr h1))
      · exact Or.inr (Or.inr (congrArg Ref.ptr h2))
      · exact absurd rfl hne
  have hm : s.Marked a 0 := congrArg Ref.mark h2
  rintro (⟨x, hx, rfl, hxm⟩ | ⟨p, q, hp, hpq, hpk, -, hqm⟩)
  · rcases hlnk hx with rfl | rfl | rfl
    · exact lt_irrefl _ hk
    · exact hxm hm
    · exact lt_irrefl _ ht
  · rcases hlnk hp with rfl | rfl | rfl
    · obtain rfl : a = q := congrArg Ref.ptr (h1.symm.trans hpq)
      exact hqm hm
    · exact not_marked_of_next hpq hm
    · exact lt_asymm hpk ht

/-- Thread 0 inserts 5, and then marks it for removal and stops. -/
def stalledRemove : List (Move (Fin 2) (Call (Fin 10) ℕ) (Fin 1)) :=
  [.call 0 (.insert 5 7)] ++ List.replicate 9 (.tau 0 0) ++ [.ret 0] ++
  [.call 0 (.remove 5)] ++ List.replicate 7 (.tau 0 0)

theorem stalledRemove_state :
    (Program.play { program (Fin 2) (Fin 10) ℕ 1 with pre := Keyed }
      ([], Program.initial { program (Fin 2) (Fin 10) ℕ 1 with pre := Keyed }) stalledRemove).any
      (fun q => decide (q.2.shared.next .head 0 = (Ptr.node 0 0).ref ∧
        q.2.shared.next (.node 0 0) 0 = ⟨.tail, true⟩ ∧ q.2.shared.key .head < 5 ∧
        5 < q.2.shared.key .tail ∧ (q.2.threads 1).isNone)) = true := by
  decide +kernel

/-- **An `insert` that runs alone can fail to return.** Thread 1 calls
`insert(5)` after `stalledRemove`: it steps over the marked node, whose
remover has stopped, and its CAS fails again and again. -/
theorem herlihy_lf_not_solo :
    ¬ Program.Solo { program (Fin 2) (Fin 10) ℕ 1 with pre := Keyed } := by
  intro hsolo
  obtain ⟨⟨es, c⟩, hplay, hq⟩ := (Option.any_eq_true _ _).mp stalledRemove_state
  obtain ⟨h1, h2, h3, h4, h5⟩ := of_decide_eq_true hq
  have hpre : ∀ t op, .call t op ∈ stalledRemove → Keyed op := by
    intro t op h
    simp only [stalledRemove, List.mem_append, List.mem_cons, List.mem_replicate, List.not_mem_nil,
      or_false, reduceCtorEq, and_false, Move.call.injEq] at h
    rcases h with ⟨-, rfl⟩ | ⟨-, rfl⟩ <;> exact ⟨by decide, by decide⟩
  have hr := Program.play_run _ .init hpre hplay
  have hkey : Keyed (.insert 5 3 : Call (Fin 10) ℕ) := ⟨by decide, by decide⟩
  have hcall : Program.Run { program (Fin 2) (Fin 10) ℕ 1 with pre := Keyed } _ _ :=
    .step hr (.call (Option.isNone_iff_eq_none.mp h5) hkey) trivial
  have ht : Function.update c.threads 1 (some (.insert 5 3, start 1 (.insert 5 3))) 1 =
      some (.insert 5 3, start 1 (.insert 5 3)) := Function.update_self _ _ _
  have hun : Unlinked (.insert 5 3 : Call (Fin 10) ℕ) (start 1 (.insert 5 3) : Pc (Fin 2) ℕ) :=
    ⟨5, 3, rfl⟩
  refine not_returns (t := 1) one_pos hcall ht hun ?_ (hsolo _ _ hcall 1 _ _ ht)
  rintro (h | h)
  · exact not_open h1 h2 h3 h4 h
  · exact h

end SkiplistHerlihyLF

end Ascylib
