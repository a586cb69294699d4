/-
# Fraser's skip list is lock-free, that of Herlihy and others is not

A step of Fraser's skip list that can set another call back ends a phase of its
own call, marks a node at a level (`clean`), unlinks a marked node (`waste`), or
turns the pointer of a node that the call has not linked at the level yet. The
last one happens at most once before each attempt to link the node there, and an
attempt fails only for a change since its search.

In the other skip list a `remove` that has stopped keeps an `insert` going round
for ever, and that run has no return.

Key theorems: `fraser_lock_free`, `herlihy_lf_not_lock_free`.
-/
import Ascylib.Concur.LockFree
import Ascylib.FraserSolo
import Ascylib.HerlihyLFSolo

set_option linter.unusedSectionVars false

namespace Ascylib

open Concur Chain Program

namespace SkipHeap

variable {T K V : Type*} [DecidableEq T] [LinearOrder K] [BoundedOrder K] {levelmax : ℕ} {t : T}
  {S : Set (SkipHeap T K V)} {s s' : SkipHeap T K V} {i : ℕ} {p q r x : Ptr T}

/-! ### Marks, and what is left to unlink -/

/-- How many levels of how many nodes are not marked. -/
noncomputable def clean (s : SkipHeap T K V) : ℕ :=
  {a : Ptr T × ℕ | (s.Allocated a.1 ∧ a.2 < s.toplevel a.1) ∧ ¬ s.Marked a.1 a.2}.ncard

/-- How many marked nodes are linked at how many levels. -/
noncomputable def waste (s : SkipHeap T K V) : ℕ :=
  {a : Ptr T × ℕ | LnkAt a.2 s a.1 ∧ s.Marked a.1 a.2}.ncard

/-- A step that marks nothing, allocates nothing, and leaves the pointers of each
level alone. -/
structure Still (S : Set (SkipHeap T K V)) (s s' : SkipHeap T K V) : Prop where
  next : ∀ {x i}, PubAt i S x → s'.next x i = s.next x i
  marked : ∀ x i, s'.Marked x i ↔ s.Marked x i
  top : ∀ x, s'.toplevel x = s.toplevel x
  count : s'.count = s.count

theorem still_of_mem (hm : s'.mem = s.mem) (hc : s'.count = s.count) : Still S s s' := by
  have hn : ∀ x i, s'.next x i = s.next x i := fun x i => by
    rw [next, hm]
    rfl
  have ht : ∀ x, s'.toplevel x = s.toplevel x := fun x => by
    rw [toplevel, hm]
    rfl
  exact ⟨fun _ => hn _ _, fun x i => by rw [Marked, hn]; rfl, ht, hc⟩

/-- A thread turns the pointer of a node at a level where it is not linked. -/
theorem still_setNext (hm : ¬ s.Marked p i) (hp : ¬ PubAt i S p) :
    Still S s (s.setNext p i r.ref) := by
  refine ⟨fun {x j} hx => next_setNext_of_ne s p x i j _ ?_, fun _ _ => marked_swing hm,
    fun x => toplevel_setNext s p x i _, rfl⟩
  by_contra h
  rw [not_or, not_not, not_not] at h
  exact hp (h.1 ▸ h.2 ▸ hx)

/-- A pointer that is written again. -/
theorem mem_setNext_same (h : s.next p i = q.ref) : (s.setNext p i q.ref).mem = s.mem := by
  have hn : Function.update (s.mem p).next i q.ref = (s.mem p).next := by
    rw [← h]
    exact Function.update_eq_self _ _
  funext x
  by_cases hx : x = p
  · subst hx
    simp [setNext, hn]
  · exact mem_setNext_of_ne s p x i _ hx

theorem finite_pairs (hfin : {x | s.Allocated x}.Finite) :
    {a : Ptr T × ℕ | s.Allocated a.1 ∧ a.2 < s.toplevel a.1}.Finite := by
  refine (hfin.biUnion fun x _ => (Set.finite_Iio (s.toplevel x)).image (Prod.mk x)).subset ?_
  rintro ⟨x, i⟩ ⟨hx, hi⟩
  exact Set.mem_biUnion hx ⟨i, hi, rfl⟩

/-- A node that gets marked at a level. -/
theorem clean_mark (hfin : {x | s.Allocated x}.Finite) (hp : s.Allocated p) (hi : i < s.toplevel p)
    (hm : ¬ s.Marked p i) : clean (s.setNext p i (setMark q.ref)) < clean s := by
  refine Set.ncard_lt_ncard ⟨?_, fun hsub => ?_⟩ ((finite_pairs hfin).subset fun a ha => ha.1)
  · rintro ⟨x, j⟩ ⟨⟨hx, hj⟩, hxm⟩
    rw [toplevel_setNext] at hj
    exact ⟨⟨hx, hj⟩, fun h => hxm ((mark_marked x j).mpr (Or.inl h))⟩
  · have hmem : (p, i) ∈ {a : Ptr T × ℕ | (s.Allocated a.1 ∧ a.2 < s.toplevel a.1) ∧
        ¬ s.Marked a.1 a.2} := ⟨⟨hp, hi⟩, hm⟩
    exact (hsub hmem).2 ((mark_marked p i).mpr (Or.inr ⟨rfl, rfl⟩))

/-- A pointer that is swung marks nothing. -/
theorem clean_swing (hm : ¬ s.Marked p i) : clean (s.setNext p i r.ref) = clean s := by
  simp only [clean, marked_swing hm, toplevel_setNext]
  rfl

theorem Still.clean (h : Still S s s') : clean s' = clean s := by
  simp only [SkipHeap.clean, h.marked, h.top, Memory.Allocated, h.count]

theorem Still.unmarked (h : Still S s s') : unmarked s' = unmarked s := by
  simp only [SkipHeap.unmarked, h.marked, Memory.Allocated, h.count]

variable (w : Leveled S s)

include w

theorem Still.waste (h : Still S s s') (hk : Stays t S s s') : waste s' = waste s := by
  have hs : (tower T K V).Same S s s' := fun i =>
    ⟨fun x hx => hk.key x (w.pub_zero hx), fun x hx => hk.val x (w.pub_zero hx),
      fun x hx _ => congrArg Ref.ptr (h.next hx), hk.count⟩
  have hl : ∀ i x, LnkAt i s' x ↔ LnkAt i s x := fun i => (hs i).lnk (w.listed i)
  simp only [SkipHeap.waste, hl, h.marked]

/-- The marked nodes behind the left one are unlinked. -/
theorem waste_splice (hfin : {x | s.Allocated x}.Finite) (hp : PubAt i S p)
    (hn : s.next p i = q.ref) (h : MarkedTo i s q r) (hne : q ≠ r) (hk : s.key p < s.key r) :
    waste (s.setNext p i r.ref) < waste s := by
  have hpt := w.ne_tail_of_lt hk
  have hq := linked_next w hp hpt hn
  obtain ⟨hr, -⟩ := h.lnk w hq
  have hlnk := fun j x => (splice_tower w hn hp hr hk j x).1
  have hmark := fun x j => marked_swing (x := x) (j := j) (r := r) (not_marked_of_next hn)
  refine Set.ncard_lt_ncard ⟨?_, fun hsub => ?_⟩ ((finite_pairs hfin).subset ?_)
  · rintro ⟨x, j⟩ ⟨hx, hm⟩
    exact ⟨((hlnk j x).mp hx).1, (hmark x j).mp hm⟩
  · -- the first of them was linked, and is not any more
    obtain ⟨z, ⟨hqm, rfl⟩, hzr⟩ := h.cases_head.resolve_left hne
    have hqt : q ≠ .tail := fun he => w.tail_mark i (he ▸ hqm)
    have hpq : s.key p < s.key q := by
      have := (w.next hp hpt).2
      rwa [hn] at this
    have hqr : s.key q < s.key r := by
      obtain ⟨h1, h2⟩ := w.next (w.pub_lnk hq) hqt
      have hpath : Relation.ReflTransGen (Onward s i) (s.next q i).ptr r :=
        hzr.lift id fun x y hxy => ⟨fun he => w.tail_mark i (he ▸ hxy.1), hxy.2⟩
      exact h2.trans_le (pub_of_onward w h1 hpath).2
    have hmem : (q, i) ∈ {a : Ptr T × ℕ | LnkAt a.2 s a.1 ∧ s.Marked a.1 a.2} := ⟨hq, hqm⟩
    rcases ((hlnk i q).mp (hsub hmem).1).2 rfl with h | h
    · exact absurd hpq (not_lt.mpr h)
    · exact absurd hqr (not_lt.mpr h)
  · rintro ⟨x, j⟩ ⟨hx, hm⟩
    have hx := w.pub_lnk hx
    exact ⟨(w.listed j).alloc x hx, w.top hx (fun he => w.head_mark j (he ▸ hm))
      fun he => w.tail_mark j (he ▸ hm)⟩

/-- Along a level that stays as it is, as many nodes are left. -/
theorem Still.rest (h : Still S s s') (hx : PubAt i S x) : rest s' i x = rest s i x := by
  have hpath : ∀ y, Relation.ReflTransGen (Onward s' i) x y ↔
      Relation.ReflTransGen (Onward s i) x y := by
    intro y
    constructor
    · intro hy
      induction hy with
      | refl => exact .refl
      | tail _ hyz ih =>
        refine ih.tail ⟨hyz.1, ?_⟩
        rw [← h.next (pub_of_onward w hx ih).1]
        exact hyz.2
    · intro hy
      induction hy with
      | refl => exact .refl
      | tail hxy hyz ih =>
        refine ih.tail ⟨hyz.1, ?_⟩
        rw [h.next (pub_of_onward w hx hxy).1]
        exact hyz.2
  simp only [SkipHeap.rest, hpath]

end SkipHeap

namespace SkiplistFraser

open FraserHeap
open SkipHeap (LnkAt PubAt Leveled Still clean waste)

variable {T K V : Type*} [DecidableEq T] [LinearOrder K]

/-! ### What the other calls may change -/

/-- What the call has read and still needs is still so. -/
def Intact (levelmax : ℕ) (s : FraserHeap T K V) (op : Call K V) : Pc T V → Prop
  | .insertDeleted _ lists => ¬ s.heap.Marked (lists.succs 0) 0
  | l => Fresh levelmax s op l

def Caller.before : Caller T V → ℕ
  | .link _ _ => 1
  | _ => 0

/-- Whether the call turns the pointer of its node before its next CAS that
links it. -/
def before : Pc T V → ℕ
  | .fraser c _ _ _ | .fraserNext c _ _ _ _ _ | .fraserKey c _ _ _ _ _ _ | .fraserCas c _ _ _ _ _ |
    .fraserRet c _ => c.before
  | .linkTop _ _ _ | .linkNext _ _ _ | .linkSwing _ _ _ _ => 1
  | _ => 0

variable [BoundedOrder K] [Zero V] {levelmax : ℕ} {t u : T} {S W : Set (FraserHeap T K V)}
  {s s' : FraserHeap T K V} {op : Call K V} {l : Pc T V} {level i : ℕ}

section congr

variable (w : Wf S s) (hq : Still (heaps S) s.heap s'.heap)

include hq

theorem adjacent_congr {a : Lists T} {k : K} (h : a.At levelmax S s k i) :
    a.Adjacent levelmax s' i ↔ a.Adjacent levelmax s i := by
  refine forall_congr' fun j => forall_congr' fun hij => forall_congr' fun hj => ?_
  rw [hq.next (h j hij hj).1.1, hq.marked]

theorem caller_adjacent_congr {c : Caller T V} {a : Lists T} {k : K}
    (h : c.Fills levelmax S s k i a) : c.Adjacent levelmax s' i a ↔ c.Adjacent levelmax s i a := by
  cases c with
  | insert => exact adjacent_congr hq h
  | link => exact adjacent_congr hq fun j _ hj => h j j.zero_le hj
  | search | remove | removed => exact Iff.rfl

/-- A quiet step of another thread. -/
theorem intact_congr (h : At levelmax u S W s op l) :
    Intact levelmax s' op l ↔ Intact levelmax s op l := by
  cases l
  case fraser c a i x =>
    exact and_congr (by rw [hq.marked]) (caller_adjacent_congr hq h.2.2)
  case fraserNext c a b y i x =>
    obtain ⟨-, h2, -, -, -, -, h7⟩ := h
    exact and_congr (by rw [hq.next h2.1]) (caller_adjacent_congr hq h7)
  case fraserKey c a b y z i x =>
    obtain ⟨-, h2, -, h4, -, -, -, -, h9⟩ := h
    exact and_congr (by rw [hq.next h2.1])
      (and_congr (by rw [hq.next h4]) (caller_adjacent_congr hq h9))
  case fraserCas c a b y i x =>
    obtain ⟨-, h2, -, -, -, -, h7⟩ := h
    exact and_congr (by rw [hq.next h2.1])
      (and_congr (by rw [hq.marked]) (caller_adjacent_congr hq h7))
  case fraserRet c x => exact caller_adjacent_congr hq h.2.1
  case insertKey n x => exact adjacent_congr hq h.2.1
  case insertDeleted n x => simp only [Intact, hq.marked]
  case insertFill n i x =>
    obtain ⟨k, v, m, -, -, -, -, -, -, h7, -⟩ := h
    exact adjacent_congr hq h7
  case insertCas n x =>
    obtain ⟨k, v, m, -, -, -, -, -, h7, -⟩ := h
    exact adjacent_congr hq h7
  case linkTop n i x => exact adjacent_congr hq fun j _ hj => h.2 j j.zero_le hj
  case linkNext n i x => exact adjacent_congr hq fun j _ hj => h.2.2 j j.zero_le hj
  case linkCas n i x => exact adjacent_congr hq fun j _ hj => h.2.1 j j.zero_le hj
  case linkSwing n y i x =>
    exact and_congr (by rw [hq.marked]) (adjacent_congr hq fun j _ hj => h.2.1 j j.zero_le hj)
  case linkKey n i x =>
    exact and_congr (by rw [hq.marked]) (adjacent_congr hq fun j _ hj => h.2.1 j j.zero_le hj)
  case markTop m n | markNext m n _ | markCas m n _ _ =>
    simp only [Intact, Fresh, hq.marked]
  all_goals exact Iff.rfl

include w

/-- And one that leaves all pointers of published nodes alone. -/
theorem rank_congr (hk : SkipHeap.Stays t (heaps S) s.heap s'.heap)
    (hn : ∀ x i, Pub 0 S x → s'.heap.next x i = s.heap.next x i) (h : At levelmax u S W s op l) :
    rank levelmax s' l = rank levelmax s l := by
  unfold rank
  rw [hq.unmarked]
  cases l
  case fraser c a i x => simp only [hq.rest w.leveled h.2.1.1]
  case fraserNext c a b y i x => simp only [hq.rest w.leveled h.2.2.2.1]
  case fraserKey c a b y z i x =>
    by_cases hy : y = .tail
    · simp only [hy, if_true]
    · simp only [if_neg hy, hq.rest w.leveled (h.2.2.2.2.2.2.1 hy)]
  case markTop m n => simp only [hk.top n h.2.1]
  case markCas m n y i => simp only [hn n i h.2.1.1]
  all_goals rfl

end congr

/-! ### What a step costs -/

/-- What a step within a phase does to the memory. -/
inductive Cost (S : Set (FraserHeap T K V)) (s : FraserHeap T K V) (l : Pc T V)
    (q : FraserHeap T K V × Pc T V) : Prop
  | mark : clean q.1.heap < clean s.heap → Cost S s l q
  | splice : clean q.1.heap = clean s.heap →
      waste q.1.heap < waste s.heap → Cost S s l q
  | swing : Still (heaps S) s.heap q.1.heap → before q.2 < before l → Cost S s l q
  | still : Still (heaps S) s.heap q.1.heap →
      (∀ x i, Pub 0 S x → q.1.heap.next x i = s.heap.next x i) → Cost S s l q

theorem Cost.of_heap {q : FraserHeap T K V × Pc T V} (hm : q.1.heap.mem = s.heap.mem)
    (hc : q.1.heap.count = s.heap.count) : Cost S s l q :=
  .still (SkipHeap.still_of_mem hm hc) fun x i _ => congrArg (fun m => (m x).next i) hm

section step

variable (w : Wf S s) (hat : At levelmax t S W s op l)

include w hat

theorem step_cost (hfin : {x | s.heap.Allocated x}.Finite)
    (hp : phase levelmax (step levelmax level t s op l).2 = phase levelmax l) :
    Cost S s l (step levelmax level t s op l) := by
  cases l
  case fraserCas c a b y i x =>
    obtain ⟨-, ⟨h2, h3⟩, -, -, h5, h6, -⟩ := hat
    rcases hc : s.cas a i b.ref y.ref with ⟨⟨⟩, s'⟩
    · simp only [step, hc]
      obtain ⟨-, rfl⟩ := cas_false hc
      exact .of_heap rfl rfl
    · simp only [step, hc]
      obtain ⟨hn, rfl⟩ := cas_true hc
      by_cases hby : b = y
      · subst hby
        exact .of_heap (SkipHeap.mem_setNext_same hn) rfl
      · exact .splice (SkipHeap.clean_swing (SkipHeap.not_marked_of_next hn))
          (SkipHeap.waste_splice w.leveled hfin h2 hn h5 hby (h3.trans_le h6))
  case insertAlloc =>
    obtain ⟨k, v, rfl⟩ := hat
    exact absurd hp (show levelmax + 4 ≠ levelmax + 5 by omega)
  case insertFill n i x =>
    obtain ⟨k, v, m, -, -, -, -, h5, -⟩ := hat
    simp only [step]
    split
    · have hn : ∀ j, ¬ Pub j S n := fun j h => h5.not_pub (w.leveled.pub_zero h)
      refine .still (SkipHeap.still_setNext (fun hm => hn 0 (w.marks hm).1) (hn i)) ?_
      exact fun y j hy => SkipHeap.next_setNext_of_ne _ _ _ _ _ _ (Or.inl fun he => hn 0 (he ▸ hy))
    · exact .of_heap rfl rfl
  case insertCas n x =>
    rcases hc : s.cas (x.preds 0) 0 (x.succs 0).ref n.ref with ⟨⟨⟩, s'⟩
    · simp only [step, hc]
      obtain ⟨-, rfl⟩ := cas_false hc
      exact .of_heap rfl rfl
    · simp only [step, hc] at hp
      exact absurd hp (show levelmax + 1 - 1 ≠ levelmax + 4 by omega)
  case linkSwing n y i x =>
    obtain ⟨⟨h1, -, -⟩, -, -⟩ := hat
    rcases hc : s.cas n i y.ref (x.succs i).ref with ⟨⟨⟩, s'⟩
    · simp only [step, hc]
      obtain ⟨-, rfl⟩ := cas_false hc
      exact .of_heap rfl rfl
    · simp only [step, hc]
      obtain ⟨hn, rfl⟩ := cas_true hc
      have hm := SkipHeap.not_marked_of_next hn
      exact .swing (SkipHeap.still_setNext hm (h1.out i le_rfl)) one_pos
  case linkCas n i x =>
    obtain ⟨⟨h1, h2, -⟩, -⟩ := hat
    rcases hc : s.cas (x.preds i) i (x.succs i).ref n.ref with ⟨⟨⟩, s'⟩
    · simp only [step, hc]
      obtain ⟨-, rfl⟩ := cas_false hc
      exact .of_heap rfl rfl
    · simp only [step, hc] at hp
      have hi : i < levelmax := h2.trans_le h1.top
      exact absurd hp (show levelmax + 1 - (i + 1) ≠ levelmax + 1 - i by omega)
  case markCas m n y i =>
    obtain ⟨-, h2, h3, -⟩ := hat
    rcases hc : s.cas n i y.ref (setMark y.ref) with ⟨⟨⟩, s'⟩
    · simp only [step, hc]
      obtain ⟨-, rfl⟩ := cas_false hc
      exact .of_heap rfl rfl
    · simp only [step, hc]
      obtain ⟨hn, rfl⟩ := cas_true hc
      exact .mark (SkipHeap.clean_mark hfin ((w.leveled.listed 0).alloc n h2.1) h3
        (SkipHeap.not_marked_of_next hn))
  case removeInc n =>
    have hinc : ∀ {x s'}, s.fetchAndInc n = (x, s') → s'.heap = s.heap := by
      intro x s' h
      cases h
      rfl
    simp only [step]
    split <;> rename_i h <;> exact .of_heap (by rw [hinc h]) (by rw [hinc h])
  all_goals exact .of_heap rfl rfl

omit [BoundedOrder K] w hat in
/-- The test of `deleted` follows that of the key. -/
theorem insertKey_of_step {n : Ptr T} {x : Lists T}
    (h : (step levelmax level t s op l).2 = .insertDeleted n x) : ∃ n x, l = .insertKey n x := by
  cases l
  case insertKey n x => exact ⟨n, x, rfl⟩
  case fraserRet c x => cases c <;> cases h
  case insertAlloc => cases op <;> cases h
  case fraser | fraserNext | searchKey | searchDeleted | insertDeleted | insertFill | insertCas |
      linkTop | linkNext | linkSwing | linkKey | linkCas | removeKey | removeDeleted | removeInc =>
    simp only [step] at h
    repeat' split at h
    all_goals cases h
  case fraserKey c a b y z i x =>
    simp only [step] at h
    repeat' split at h
    all_goals cases i <;> cases h
  case fraserCas c a b y i x =>
    simp only [step] at h
    split at h <;> cases i <;> cases h
  case markTop m n =>
    simp only [step] at h
    split at h <;> cases m <;> cases h
  case markNext m n i | markCas m n y i =>
    simp only [step] at h
    split at h <;> cases i <;> cases m <;> cases h
  all_goals cases h

omit [BoundedOrder K] [Zero V] w hat in
theorem intact_eq (hl : ∀ n x, l ≠ .insertDeleted n x) :
    Intact levelmax s op l ↔ Fresh levelmax s op l := by
  cases l
  case insertDeleted n x => exact absurd rfl (hl n x)
  all_goals exact Iff.rfl

theorem nearer_intact (hpos : 0 < levelmax) (hfin : {x | s.heap.Allocated x}.Finite)
    (hb : ⊥ < op.key) (ht : op.key < ⊤) (hres : result l = none) :
    Program.Nearer (phase levelmax) (Intact levelmax) (rank levelmax) s op l
      (step levelmax level t s op l) := by
  by_cases hk : ∃ n x, l = .insertKey n x
  · obtain ⟨n, x, rfl⟩ := hk
    simp only [step]
    split
    · exact .on rfl (fun hf => (hf 0 le_rfl hpos).2) (lex_right (lex_right (lex_right (by decide))))
    · exact .on rfl id (lex_right (lex_left (by decide)))
  by_cases hd : ∃ n x, l = .insertDeleted n x
  · obtain ⟨n, x, rfl⟩ := hd
    simp only [step]
    split
    · exact .on rfl (fun hf _ => hf) (lex_right (lex_left (by decide)))
    · exact Or.inl (show 1 < levelmax + 4 by omega)
  -- elsewhere it is the same as that the round is fresh
  have h0 : Intact levelmax s op l = Fresh levelmax s op l :=
    propext (intact_eq fun n x h => hd ⟨n, x, h⟩)
  have h1 : Intact levelmax (step levelmax level t s op l).1 op (step levelmax level t s op l).2 =
      Fresh levelmax (step levelmax level t s op l).1 op (step levelmax level t s op l).2 :=
    propext (intact_eq fun n x h => hk (insertKey_of_step h))
  unfold Program.Nearer
  rw [h0, h1]
  exact nearer hpos w hfin hb ht hat hres

/-- An attempt to link the node that fails was not fresh. -/
theorem before_step (hp : phase levelmax (step levelmax level t s op l).2 = phase levelmax l)
    (hres : result l = none) :
    before (step levelmax level t s op l).2 ≤ before l ∨
      before (step levelmax level t s op l).2 ≤ before l + 1 ∧ ¬ Intact levelmax s op l ∧
        Intact levelmax (step levelmax level t s op l).1 op (step levelmax level t s op l).2 := by
  have hbegin : ∀ {c : Caller T V} {lists}, Fresh levelmax s op (begin levelmax c lists) :=
    fresh_begin w.leveled.head_mark
  cases l
  case fraser | fraserNext =>
    left
    simp only [step]
    split <;> exact le_rfl
  case fraserKey c a b y z i x =>
    left
    simp only [step]
    split
    · split
      · exact le_rfl
      · cases i <;> exact le_rfl
    · exact le_rfl
  case fraserCas c a b y i x =>
    left
    simp only [step]
    split
    · cases i <;> exact le_rfl
    · exact le_rfl
  case fraserRet c x => cases c <;> exact Or.inl le_rfl
  case insertCas n x =>
    left
    rcases hc : s.cas (x.preds 0) 0 (x.succs 0).ref n.ref with ⟨⟨⟩, s'⟩
    · simp only [step, hc]
      exact le_rfl
    · simp only [step, hc] at hp
      exact absurd hp (show levelmax + 1 - 1 ≠ levelmax + 4 by omega)
  case linkCas n i x =>
    obtain ⟨⟨h1, h2, -⟩, -⟩ := hat
    have hi : i < levelmax := h2.trans_le h1.top
    rcases hc : s.cas (x.preds i) i (x.succs i).ref n.ref with ⟨⟨⟩, s'⟩
    · simp only [step, hc]
      obtain ⟨hne, rfl⟩ := cas_false hc
      exact Or.inr ⟨le_rfl, fun hf => hne (hf i le_rfl hi).1, hbegin⟩
    · simp only [step, hc] at hp
      exact absurd hp (show levelmax + 1 - (i + 1) ≠ levelmax + 1 - i by omega)
  case linkInside n i x =>
    exact Or.inr ⟨le_rfl, id, hbegin⟩
  case markTop m n =>
    left
    simp only [step]
    split <;> cases m <;> exact le_rfl
  case markNext m n i | markCas m n y i =>
    left
    simp only [step]
    split <;> cases i <;> cases m <;> exact le_rfl
  case insertAlloc =>
    obtain ⟨k, v, rfl⟩ := hat
    exact Or.inl le_rfl
  case searchKey | searchDeleted | insertKey | insertDeleted | insertFill | linkTop | linkNext |
      linkSwing | linkKey | removeKey | removeDeleted | removeInc =>
    left
    simp only [step]
    repeat' split
    all_goals simp [before]
  case done => cases hres
  case unchanged => cases hres
  all_goals exact Or.inl le_rfl

end step

/-! ### The runs -/

theorem finite_of_run {es : Trace T (Call K V) (Answer V) (FraserHeap T K V) (Pc T V)}
    {c : Config T (Call K V) (FraserHeap T K V) (Pc T V)} (hr : (keyed T K V levelmax).Run es c) :
    {x | c.shared.heap.Allocated x}.Finite :=
  Memory.run_finite heap (fun _ => rfl) (fun {i t s op l s' l'} hs u hu => by
    have he : step levelmax (i + 1) t s op l = (s', l') := Option.some.inj hs
    have hcount : (step levelmax (i + 1) t s op l).1.heap.count u = s.heap.count u := count_step hu
    rwa [he] at hcount) hr

/-- **Fraser's skip list is lock-free**: in every run that goes on for ever,
whichever threads the scheduler stops, calls return again and again. -/
theorem fraser_lock_free [Nontrivial K] [Fintype T] (hpos : 0 < levelmax) :
    (keyed T K V levelmax).LockFree fun _ _ _ _ => True := by
  refine Program.lockFree_of_phase (phase levelmax) (Intact levelmax) (rank levelmax)
    (fun s => toLex (clean s.heap, waste s.heap))
    (fun s op l => rounds (Intact levelmax s op l) (before l)) ?_
  intro es c t op l i s' l' hr ht hres hst
  have he : step levelmax (i + 1) t c.shared op l = (s', l') := Option.some.inj hst
  have hh := (outline hpos fun _ h => h).holds hr
  obtain ⟨-, -, hc, hat⟩ := hh.loc t op l ht
  have hact := (step_ok_of_run hpos (fun _ h => h) hr i ht hres).act
  have hk := hact.stays hh.glob
  have hn : Program.Nearer (phase levelmax) (Intact levelmax) (rank levelmax) c.shared op l
      (step levelmax (i + 1) t c.shared op l) :=
    nearer_intact hh.glob hat hpos (finite_of_run hr) hc.1 hc.2 hres
  have hcost : phase levelmax (step levelmax (i + 1) t c.shared op l).2 = phase levelmax l →
      Cost _ c.shared l (step levelmax (i + 1) t c.shared op l) :=
    step_cost hh.glob hat (finite_of_run hr)
  have hbefore : phase levelmax (step levelmax (i + 1) t c.shared op l).2 = phase levelmax l → _ :=
    fun hp => before_step hh.glob hat hp hres
  rw [he] at hn hcost hbefore hk
  refine ⟨hn, fun hp => ?_⟩
  -- a call that stays in its phase keeps what it has found
  have hf : Intact levelmax c.shared op l → Intact levelmax s' op l' := by
    rcases hn with hlt | ⟨-, hf, -⟩
    · exact absurd hp (ne_of_lt hlt)
    · exact hf
  have hintact : Still (heaps _) c.shared.heap s'.heap → ∀ u op₁ l₁, c.threads u = some (op₁, l₁) →
      (Intact levelmax s' op₁ l₁ ↔ Intact levelmax c.shared op₁ l₁) := fun hq u op₁ l₁ hu =>
    intact_congr hq (hh.loc u op₁ l₁ hu).2.2.2
  have hdue : Still (heaps _) c.shared.heap s'.heap → ∀ u op₁ l₁, u ≠ t →
      c.threads u = some (op₁, l₁) → rounds (Intact levelmax s' op₁ l₁) (before l₁) =
        rounds (Intact levelmax c.shared op₁ l₁) (before l₁) := fun hq u op₁ l₁ _ hu => by
    rw [propext (hintact hq u op₁ l₁ hu)]
  have hcredit : Still (heaps _) c.shared.heap s'.heap →
      toLex (clean s'.heap, waste s'.heap) ≤ toLex (clean c.shared.heap, waste c.shared.heap) :=
    fun hq => by rw [hq.clean, hq.waste hh.glob.leveled hk]
  rcases hcost hp with hlt | ⟨heq, hlt⟩ | ⟨hq, hlt⟩ | ⟨hq, hnext⟩
  · exact Or.inl (lex_left hlt)
  · exact Or.inl (Prod.Lex.toLex_lt_toLex.mpr (Or.inr ⟨heq, hlt⟩))
  · exact Or.inr ⟨hcredit hq, hdue hq, Or.inl (rounds_lt hf hlt)⟩
  · exact Or.inr ⟨hcredit hq, hdue hq, Or.inr ⟨rounds_le hf (hbefore hp), fun u op₁ l₁ _ hu =>
      ⟨hintact hq u op₁ l₁ hu, rank_congr hh.glob hq hk hnext (hh.loc u op₁ l₁ hu).2.2.2⟩⟩⟩

/-- Three threads, keys 1 to 8, and nodes of up to four levels. -/
theorem fraser_lock_free_three :
    (keyed (Fin 3) (Fin 10) ℕ 4).LockFree fun _ _ _ _ => True := fraser_lock_free (by decide)

end SkiplistFraser

namespace SkiplistHerlihyLF

open SkipHeap

variable {T K V : Type*} [DecidableEq T] [LinearOrder K] [BoundedOrder K] [Zero V] {levelmax : ℕ}

/-- **An insert that does not return alone can go round for ever**, and then no
call returns. -/
theorem not_lock_free_of_stuck [Nontrivial K] (hpos : 0 < levelmax)
    {es : Trace T (Call K V) (Answer V) (SkipHeap T K V) (Pc T V)}
    {c : Config T (Call K V) (SkipHeap T K V) (Pc T V)}
    (hr : Program.Run { program T K V levelmax with pre := Keyed } es c) {t : T} {op : Call K V}
    {l : Pc T V} (ht : c.threads t = some (op, l)) (hu : Unlinked op l)
    (hg : ¬ Good c.shared op l) :
    ¬ Program.LockFree { program T K V levelmax with pre := Keyed } fun _ _ _ _ => True := by
  refine Program.not_lockFree (fun c => ∃ l, c.threads t = some (op, l) ∧ Unlinked op l ∧
    ¬ Good c.shared op l) ?_ hr ⟨l, ht, hu, hg⟩
  rintro es c hr ⟨l, ht, hu, hg⟩
  have hh := (outline hpos fun _ h => h).holds hr
  have hat := (hh.loc t op l ht).2.2.2
  have hres : result l = none := by cases l <;> first | rfl | exact hu.elim
  have hnext : Unlinked op (step levelmax 1 t c.shared op l).2 := stuck_step hu hg
  have hgood := unlinked_step hh.glob (finite_of_run hr) hat hres hnext
  have hst : Program.Step { program T K V levelmax with pre := Keyed } c (.tau t) _ :=
    .tau ⟨0, hpos⟩ ht hres (rfl : _ = some (step levelmax 1 t c.shared op l))
  refine ⟨_, _, hst, trivial, fun _ _ _ he => ?_, _, Function.update_self _ _ _, hnext,
    fun h => hg (hgood.2.mp h)⟩
  cases he

/-- After `stalledRemove`, thread 1 calls `insert(5)`. -/
theorem herlihy_lf_not_lock_free :
    ¬ Program.LockFree { program (Fin 2) (Fin 10) ℕ 1 with pre := Keyed } fun _ _ _ _ => True := by
  obtain ⟨⟨es, c⟩, hplay, hq⟩ := (Option.any_eq_true _ _).mp stalledRemove_state
  obtain ⟨h1, h2, h3, h4, h5⟩ := of_decide_eq_true hq
  have hpre : ∀ t op, .call t op ∈ stalledRemove → Keyed op := by
    intro t op h
    simp only [stalledRemove, List.mem_append, List.mem_cons, List.mem_replicate, List.not_mem_nil,
      or_false, reduceCtorEq, and_false, Move.call.injEq] at h
    rcases h with ⟨-, rfl⟩ | ⟨-, rfl⟩ <;> exact ⟨by decide, by decide⟩
  have hr := Program.play_run _ .init hpre hplay
  have hkey : Keyed (.insert 5 3 : Call (Fin 10) ℕ) := ⟨by decide, by decide⟩
  have hcall : Program.Run { program (Fin 2) (Fin 10) ℕ 1 with pre := Keyed } _ _ :=
    .step hr (.call (Option.isNone_iff_eq_none.mp h5) hkey) trivial
  have hun : Unlinked (.insert 5 3 : Call (Fin 10) ℕ) (start 1 (.insert 5 3) : Pc (Fin 2) ℕ) :=
    ⟨5, 3, rfl⟩
  have ht : Function.update c.threads 1 (some (.insert 5 3, start 1 (.insert 5 3))) 1 =
      some (.insert 5 3, start 1 (.insert 5 3)) := Function.update_self _ _ _
  refine not_lock_free_of_stuck (t := 1) one_pos hcall ht hun ?_
  rintro (h | h)
  · exact not_open h1 h2 h3 h4 h
  · exact h

end SkiplistHerlihyLF

end Ascylib
