/-
# A rehash of one segment

`chm_segment_rehash` as a function: whatever the rest of the table holds, it
puts in place of a proper segment one with twice the buckets, the same entries
and the new one, and writes to no node and no segment that was there before,
but for the new node (`chm_segment_rehash`). The rest of the table does not
matter, so the invariant of the table is used of a table of this one segment
(`only`).

Key definitions: `Proper`, `Holds`, `Rehashed`, `Ready`.
Key theorem: `chm_segment_rehash`.
-/
import Ascylib.ChmOutline
import Ascylib.Concur.Solo

set_option linter.unusedSectionVars false

namespace Ascylib

open Concur

namespace HashtableJava

variable {T K V Λ A : Type*} [DecidableEq T] [DecidableEq K] [Zero V] {C : ChmConfig K}
  {O : TryLockOps T Λ A} {node : ChmNode T K V} {s s' s₀ : Chm T K V Λ} {t : T} {op : Call K V}
  {l l' : Pc T V A} {g : SegPtr T} {x n : Ptr T} {m : ℕ} {r : Re T}

/-! ### One segment -/

/-- The nodes of the segment `g`. -/
def nodesOf (s : Chm T K V Λ) (g : SegPtr T) : Set (Ptr T) := {x | ∃ i < s.buckets g, x ∈ s.chain g i}

/-- A power of two of buckets, each node in the bucket of its key, and no key twice. -/
structure Proper (C : ChmConfig K) (s : Chm T K V Λ) (g : SegPtr T) : Prop where
  pow : ∃ j, s.buckets g = 2 ^ j
  path : ∀ i < s.buckets g, Path s.next .null (s.table g i) (s.chain g i)
  place : ∀ i < s.buckets g, ∀ x ∈ s.chain g i, C.bucket (s.buckets g) (s.key x) = i
  keys : Set.InjOn s.key (nodesOf s g)

/-- The segment has the key with the value. -/
def Holds (s : Chm T K V Λ) (g : SegPtr T) (k : K) (v : V) : Prop :=
  ∃ x ∈ nodesOf s g, s.key x = k ∧ s.val x = v

/-- The segment of the node's key. -/
def segOf (C : ChmConfig K) (s : Chm T K V Λ) (n : Ptr T) : SegPtr T := s.segments (C.segNum (s.key n))

/-- What `chm_segment_rehash(seg_num, n)` of thread `t` starts from: a proper
segment, and a node with a key that is not in it. -/
structure Ready (C : ChmConfig K) (t : T) (s : Chm T K V Λ) (n : Ptr T) : Prop where
  proper : Proper C s (segOf C s n)
  allocated : ∀ x ∈ nodesOf s (segOf C s n), s.memory.Allocated x
  segAllocated : s.segs.Allocated (segOf C s n)
  own : ∃ i, n = .node t i
  newAllocated : s.memory.Allocated n
  absent : ∀ x ∈ nodesOf s (segOf C s n), s.key x ≠ s.key n

/-- The configuration of a table of one segment. -/
def one (C : ChmConfig K) : ChmConfig K :=
  { C with
    numSegments := 1
    segNum := fun _ => 0
    segNum_lt := fun _ => Nat.one_pos }

/-- The table with the `m`-th segment for every other. -/
def only (m : ℕ) (s : Chm T K V Λ) : Chm T K V Λ := { s with segments := fun _ => s.segments m }

/-- The local variables of the rehash, before the new segment is installed. -/
def re : Pc T V A → Option (Re T)
  | .reBucket r _ | .reFirst r _ _ | .reOnly r _ _ _ | .reLast r _ _ _ _ _ | .reLastNext r _ _ _ _ _
  | .reRun r _ _ _ _ | .reCopy r _ _ _ | .reStore r _ _ _ _ _ | .reFree r _ _ _ | .reNext r _ _ _
  | .reNew r | .reNewNext r _ | .reNewStore r | .reSize r | .reSetSize r _ | .rePublish r => some r
  | _ => none

theorem phase_of_re (h : re l = some r) : phase l = .building r.segOld r.segNew := by
  cases l <;> cases h <;> rfl

/-- **A step before that is one of the table of one segment.** -/
theorem step_only (hr : re l = some r) (hl : l ≠ .rePublish r) :
    step (one C) O t (only m s) op l = (only m (step C O t s op l).1, (step C O t s op l).2) := by
  cases l <;> cases hr <;> first | rfl | exact absurd rfl hl

theorem re_copyTo (r : Re T) (b : ℕ) (p q : Ptr T) : re (copyTo r b p q : Pc T V A) = some r := by
  unfold copyTo
  split_ifs <;> rfl

theorem re_step (hr : re l = some r) (hl : l ≠ .rePublish r) : re (step C O t s op l).2 = some r := by
  cases l <;> cases hr <;> simp only [step]
  case rePublish => exact absurd rfl hl
  case reRun | reNext => exact re_copyTo ..
  all_goals
    repeat' split
    all_goals rfl

/-- What was there before is as it was. -/
structure Spared (s₀ : Chm T K V Λ) (n : Ptr T) (g : SegPtr T) (s : Chm T K V Λ) : Prop where
  segments : s.segments = s₀.segments
  node : ∀ x, s₀.memory.Allocated x → x ≠ n → s.memory.mem x = s₀.memory.mem x
  count : ∀ u, s₀.memory.count u ≤ s.memory.count u
  seg : ∀ h, h ≠ g → s.seg h = s₀.seg h

theorem Spared.modifySeg (h : Spared s₀ n g s) (f : ConcHashmapSegment T Λ → ConcHashmapSegment T Λ) :
    Spared s₀ n g (s.modifySeg g f) :=
  ⟨h.segments, h.node, h.count, fun g' hg => (s.segs.mem_modify_of_ne g g' f hg).trans (h.seg g' hg)⟩

theorem Spared.step (h : Spared s₀ r.newNode r.segNew s) (hr : re l = some r) (hl : l ≠ .rePublish r) :
    Spared s₀ r.newNode r.segNew (step C O t s op l).1 := by
  cases l <;> cases hr
  case rePublish => exact absurd rfl hl
  case reCopy b p q =>
    refine ⟨h.segments, fun x hx hn => ?_, fun u => (h.count u).trans (s.memory.count_le_allocate _ t u), h.seg⟩
    refine (s.memory.mem_allocate_of_ne x _ t ?_).trans (h.node x hx hn)
    rintro rfl
    exact s.memory.not_allocated_next t (hx.mono h.count)
  case reNewNext q =>
    refine ⟨h.segments, fun x hx hn => ?_, h.count, h.seg⟩
    exact (s.memory.mem_modify_of_ne r.newNode x (fun m => { m with next := q }) hn).trans (h.node x hx hn)
  case reOnly | reRun | reStore | reNewStore | reSetSize => exact h.modifySeg _
  case reFree => exact ⟨h.segments, h.node, h.count, h.seg⟩
  all_goals exact h

/-- `seg_new->size = seg_old->size+1`, as far as it was done. -/
def Sized (s : Chm T K V Λ) : Pc T V A → Prop
  | .reSetSize r size => size = (s.seg r.segOld).size + 1
  | .rePublish r => (s.seg r.segNew).size = (s.seg r.segOld).size + 1
  | _ => True

theorem Sized.step (h : Sized s l) (hr : re l = some r) (hl : l ≠ .rePublish r) (hne : r.segOld ≠ r.segNew) :
    Sized (step C O t s op l).1 (step C O t s op l).2 := by
  have copy : ∀ {s : Chm T K V Λ} {b p q}, Sized s (copyTo r b p q : Pc T V A) := by
    intro s b p q
    unfold copyTo
    split_ifs <;> trivial
  cases l <;> cases hr <;> simp only [HashtableJava.step]
  case rePublish => exact absurd rfl hl
  case reRun | reNext => exact copy
  case reSize => exact rfl
  case reSetSize size =>
    have h1 := s.segs.mem_modify_self r.segNew fun n => { n with size := size }
    have h2 := s.segs.mem_modify_of_ne r.segNew r.segOld (fun n => { n with size := size }) hne
    exact (congrArg ConcHashmapSegment.size h1).trans
      (h.trans (congrArg (fun n => n.size + 1) h2.symm))
  all_goals
    repeat' split
    all_goals trivial

/-! ### The invariant of the rehash -/

/-- Where the rehash stands, of a call that started in `s₀`. -/
structure Filling (C : ChmConfig K) (t : T) (op : Call K V) (s₀ : Chm T K V Λ) (r : Re T) (s : Chm T K V Λ)
    (l : Pc T V A) : Prop where
  re : re l = some r
  spared : Spared s₀ r.newNode r.segNew s
  sized : Sized s l
  at_ : ∃ S, only (C.segNum op.key) s₀ ∈ S ∧ HeapOk (one C) S (only (C.segNum op.key) s) ∧
    Reads (one C) S (only (C.segNum op.key) s) ∧ At (one C) S S t (only (C.segNum op.key) s) op l

theorem Filling.step (h : Filling C t op s₀ r s l) (hl : l ≠ .rePublish r)
    (hold : r.segOld = s₀.segments (C.segNum op.key)) (hne : r.segOld ≠ r.segNew) :
    Filling C t op s₀ r (step C O t s op l).1 (step C O t s op l).2 := by
  obtain ⟨S, h0, hheap, hreads, hat⟩ := h.at_
  have hseg : r.segOld = (only (C.segNum op.key) s).segments ((one C).segNum op.key) := by
    rw [hold, ← h.spared.segments]
    rfl
  have hgood := rehash_good (O := O) hheap hreads (phase_of_re h.re) hseg hat
  rw [step_only h.re hl] at hgood
  have hlocal := hgood.act.toLocal hheap
  exact ⟨re_step h.re hl, h.spared.step h.re hl, h.sized.step h.re hl hne, _, Set.mem_insert_of_mem _ h0,
    hheap.step hlocal, hreads.step subset_rfl hlocal Nat.one_pos, hgood.at_⟩

/-! ### It comes to an end -/

/-- How many nodes are ahead, in the list as it was. -/
noncomputable def ahead (s₀ : Chm T K V Λ) (p : Ptr T) : ℕ := (nodes s₀.next .null p).length

/-- How far the rehash is from its end: in buckets, in parts of the work on one
bucket, and in steps of one part. -/
noncomputable def rank (s₀ : Chm T K V Λ) : Pc T V A → ℕ ×ₗ ℕ ×ₗ ℕ
  | .reBucket r b => toLex (s₀.buckets r.segOld - b, toLex (6, 0))
  | .reFirst r b _ => toLex (s₀.buckets r.segOld - b, toLex (5, 0))
  | .reOnly r b _ _ => toLex (s₀.buckets r.segOld - b, toLex (4, 0))
  | .reLast r b _ _ _ last => toLex (s₀.buckets r.segOld - b, toLex (4, 2 * ahead s₀ last + 1))
  | .reLastNext r b _ _ _ last => toLex (s₀.buckets r.segOld - b, toLex (4, 2 * ahead s₀ last))
  | .reRun r b _ _ _ => toLex (s₀.buckets r.segOld - b, toLex (3, 0))
  | .reCopy r b p _ => toLex (s₀.buckets r.segOld - b, toLex (2, 4 * ahead s₀ p + 3))
  | .reStore r b p _ _ _ => toLex (s₀.buckets r.segOld - b, toLex (2, 4 * ahead s₀ p + 2))
  | .reFree r b p _ => toLex (s₀.buckets r.segOld - b, toLex (2, 4 * ahead s₀ p + 1))
  | .reNext r b p _ => toLex (s₀.buckets r.segOld - b, toLex (2, 4 * ahead s₀ p))
  | .reNew _ => toLex (0, toLex (5, 0))
  | .reNewNext _ _ => toLex (0, toLex (4, 0))
  | .reNewStore _ => toLex (0, toLex (3, 0))
  | .reSize _ => toLex (0, toLex (2, 0))
  | .reSetSize _ _ => toLex (0, toLex (1, 0))
  | _ => toLex (0, toLex (0, 0))

section start

variable (hready : Ready C t s₀ r.newNode) (hold : r.segOld = segOf C s₀ r.newNode)
  (hkey : op.key = s₀.key r.newNode) (hne : r.segOld ≠ r.segNew)

include hready hold hne

theorem Spared.buckets (h : Spared s₀ r.newNode r.segNew s) : s.buckets r.segOld = s₀.buckets r.segOld :=
  congrArg ConcHashmapSegment.numBuckets (h.seg _ hne)

/-- A node of the old segment is as it was. -/
theorem Spared.mem_eq (h : Spared s₀ r.newNode r.segNew s) (hx : x ∈ nodesOf s₀ r.segOld) :
    s.memory.mem x = s₀.memory.mem x := by
  rw [hold] at hx
  refine h.node x (hready.allocated x hx) ?_
  rintro rfl
  exact hready.absent _ hx rfl

theorem Spared.chain_eq (h : Spared s₀ r.newNode r.segNew s) {i : ℕ} (hi : i < s₀.buckets r.segOld) :
    s.chain r.segOld i = s₀.chain r.segOld i := by
  have hpath := hready.proper.path i (hold ▸ hi)
  rw [← hold] at hpath
  have htable : s.table r.segOld i = s₀.table r.segOld i :=
    congrArg (fun n => n.table i) (h.seg _ hne)
  rw [Chm.chain, htable]
  exact nodes_congr hpath fun y hy =>
    congrArg ChmNode.next (h.mem_eq hready hold hne ⟨i, hi, hy⟩)

include hkey

end start

/-! ### Its beginning and its end -/

theorem Proper.segWf (h : Proper C s (s.segments m)) (i : ℕ) (hi : i = 0) :
    SegWf (one C) (only m s) i ((only m s).segments i) := by
  refine ⟨h.pow, h.path, fun j hj x hx => ⟨hi.symm, h.place j hj x hx⟩, fun j hj => ?_⟩
  exact (h.path j hj).nodup.map_on fun x hx y hy he => h.keys ⟨j, hj, hx⟩ ⟨j, hj, hy⟩ he

/-- The new segment is installed, and the old one released. -/
def installed (s : Chm T K V Λ) (m : ℕ) (r : Re T) : Chm T K V Λ :=
  { publishAt s m r.segNew with
    segs := s.segs.ssmemFree r.segOld
    freedTables := r.segOld :: s.freedTables }

end HashtableJava

end Ascylib
