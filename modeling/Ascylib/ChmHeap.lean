/-
# What the table of segments holds

The nodes on the lists of the segments that are installed are `Linked`. In a
well-formed table every key has one segment and one list, and is on one node of
it at most, so the table stands for a map (`absMap`). A store to the last
pointer before some nodes of a list swaps these nodes (`Chm.setLink_chain`), and
this is all that an update without a rehash does.

What a thread has made and not yet put into the table is its own
(`OwnNode`, `OwnSeg`): stores to it change nothing (`Private`).

Key definitions: `Chm.chain`, `Linked`, `Wf`, `absMap`, `HeapOk`, `Local`, `Private`, `Seek`.
Key theorems: `setLink_chain`, `Wf.unique`, `Update.toLocal`, `absMap_publish`.
-/
import Ascylib.ChmLocks
import Ascylib.Concur.Chain
import Ascylib.Concur.Hindsight
import Ascylib.Concur.Path

set_option linter.unusedSectionVars false

namespace Ascylib

open Concur

variable {T K V Λ : Type*} [DecidableEq T] [DecidableEq K] [Zero V]

/-! ### Lists -/

namespace Chm

/-- What a walk needs of the segment `g`. -/
def shape (s : Chm T K V Λ) (g : SegPtr T) : ℕ × (ℕ → Ptr T) := ((s.seg g).numBuckets, (s.seg g).table)

def buckets (s : Chm T K V Λ) (g : SegPtr T) : ℕ := (s.shape g).1
def table (s : Chm T K V Λ) (g : SegPtr T) (i : ℕ) : Ptr T := (s.shape g).2 i

/-- The list of bucket `i` of the segment `g`. -/
noncomputable def chain (s : Chm T K V Λ) (g : SegPtr T) (i : ℕ) : List (Ptr T) :=
  nodes s.next .null (s.table g i)

end Chm

namespace HashtableJava

variable (C : ChmConfig K)

/-- The segment `g` holds keys of the `m`-th segment, each in its bucket. -/
structure SegWf (s : Chm T K V Λ) (m : ℕ) (g : SegPtr T) : Prop where
  pow : ∃ j, s.buckets g = 2 ^ j
  path : ∀ i < s.buckets g, Path s.next .null (s.table g i) (s.chain g i)
  place : ∀ i < s.buckets g, ∀ x ∈ s.chain g i,
    C.segNum (s.key x) = m ∧ C.bucket (s.buckets g) (s.key x) = i
  keys : ∀ i < s.buckets g, ((s.chain g i).map s.key).Nodup

/-- Every installed segment is. -/
def Wf (s : Chm T K V Λ) : Prop := ∀ m < C.numSegments, SegWf C s m (s.segments m)

/-- The node is on a list of the `m`-th segment. -/
def LinkedAt (s : Chm T K V Λ) (m : ℕ) (x : Ptr T) : Prop :=
  ∃ i < s.buckets (s.segments m), x ∈ s.chain (s.segments m) i

/-- The node is on a list of a segment that is installed. -/
def Linked (s : Chm T K V Λ) (x : Ptr T) : Prop := ∃ m < C.numSegments, LinkedAt s m x

/-- The map that the table stands for. -/
noncomputable def absMap (s : Chm T K V Λ) : K → Option V := Chain.mapOf (Linked C s) s.key s.val

variable {C} {s s' : Chm T K V Λ} {S : Set (Chm T K V Λ)} {g : SegPtr T} {x y n q : Ptr T} {m i : ℕ}
  {k : K} {t u : T}

theorem ChmConfig.bucket_eq (j : ℕ) (k : K) : C.bucket (2 ^ j) k = C.hash k % 2 ^ j :=
  Nat.and_two_pow_sub_one_eq_mod ..

/-! ### Well-formed tables -/

namespace SegWf

variable (h : SegWf C s m g)

include h

theorem bucket_lt (k : K) : C.bucket (s.buckets g) k < s.buckets g := by
  obtain ⟨j, hj⟩ := h.pow
  rw [hj, ChmConfig.bucket_eq]
  exact Nat.mod_lt _ (Nat.two_pow_pos j)

/-- A key is on one node of the segment. -/
theorem eq_of_key {j : ℕ} (hi : i < s.buckets g) (hj : j < s.buckets g) (hx : x ∈ s.chain g i)
    (hy : y ∈ s.chain g j) (hk : s.key x = s.key y) : x = y := by
  have hij : i = j := by
    rw [← (h.place i hi x hx).2, ← (h.place j hj y hy).2, hk]
  subst hij
  exact List.inj_on_of_nodup_map (h.keys i hi) hx hy hk

theorem ne_null (hi : i < s.buckets g) (hx : x ∈ s.chain g i) : x ≠ .null := (h.path i hi).ne_nil hx

/-- A segment is read the same in a heap that agrees on it. -/
theorem chain_congr (hs : s'.shape g = s.shape g)
    (hm : ∀ i < s.buckets g, ∀ x ∈ s.chain g i, s'.memory.mem x = s.memory.mem x)
    (hi : i < s.buckets g) : s'.chain g i = s.chain g i := by
  rw [Chm.chain, show s'.table g i = s.table g i by rw [Chm.table, hs, Chm.table]]
  exact nodes_congr (h.path i hi) fun y hy => congrArg ChmNode.next (hm i hi y hy)

theorem congr (hs : s'.shape g = s.shape g)
    (hm : ∀ i < s.buckets g, ∀ x ∈ s.chain g i, s'.memory.mem x = s.memory.mem x) : SegWf C s' m g := by
  have hb : s'.buckets g = s.buckets g := congrArg Prod.fst hs
  have hc := fun i hi => h.chain_congr (i := i) hs hm hi
  have hkey : ∀ i < s.buckets g, ∀ x ∈ s.chain g i, s'.key x = s.key x :=
    fun i hi x hx => congrArg ChmNode.key (hm i hi x hx)
  refine ⟨by rw [hb]; exact h.pow, fun i hi => ?_, fun i hi x hx => ?_, fun i hi => ?_⟩
  all_goals rw [hb] at hi
  · rw [hc i hi, show s'.table g i = s.table g i by rw [Chm.table, hs, Chm.table]]
    exact (h.path i hi).congr fun y hy => congrArg ChmNode.next (hm i hi y hy)
  · rw [hc i hi] at hx
    rw [hb, hkey i hi x hx]
    exact h.place i hi x hx
  · rw [hc i hi, List.map_congr_left (hkey i hi)]
    exact h.keys i hi

end SegWf

namespace Wf

variable (h : Wf C s)

include h

/-- A linked node is on the list of its key. -/
theorem mem_of_linked (hx : Linked C s x) :
    x ∈ s.chain (s.segments (C.segNum (s.key x)))
      (C.bucket (s.buckets (s.segments (C.segNum (s.key x)))) (s.key x)) := by
  obtain ⟨m, hm, i, hi, hx⟩ := hx
  obtain ⟨h1, h2⟩ := (h m hm).place i hi x hx
  rwa [h1, h2]

/-- **A key is on one node of the table.** -/
theorem unique : Chain.Unique (Linked C s) s.key := by
  intro x y hx hy hk
  have hx' := h.mem_of_linked hx
  have hy' := h.mem_of_linked hy
  rw [← hk] at hy'
  have hm := h _ (C.segNum_lt (s.key x))
  exact hm.eq_of_key (hm.bucket_lt _) (hm.bucket_lt _) hx' hy' hk

theorem absMap_eq_some (hx : Linked C s x) : absMap C s (s.key x) = some (s.val x) :=
  Chain.mapOf_eq_some h.unique hx

/-- A key that is not on its list is not in the map. -/
theorem absMap_eq_none {k : K} (hk : ∀ x ∈ s.chain (s.segments (C.segNum k))
    (C.bucket (s.buckets (s.segments (C.segNum k))) k), s.key x ≠ k) : absMap C s k = none := by
  refine Chain.mapOf_eq_none.mpr fun x hx he => ?_
  have hx' := h.mem_of_linked hx
  rw [he] at hx'
  exact hk x hx' he

theorem absMap_iff {k : K} {v : V} :
    absMap C s k = some v ↔ ∃ x, Linked C s x ∧ s.key x = k ∧ s.val x = v := by
  refine ⟨Chain.exists_of_mapOf_eq_some, ?_⟩
  rintro ⟨x, hx, rfl, rfl⟩
  exact h.absMap_eq_some hx

theorem ne_null (hx : Linked C s x) : x ≠ .null := by
  obtain ⟨m, hm, i, hi, hx⟩ := hx
  exact (h m hm).ne_null hi hx

/-- Behind a linked node there is a linked node, or the end. -/
theorem next_linked (hx : Linked C s x) (hn : s.next x ≠ .null) : Linked C s (s.next x) := by
  obtain ⟨m, hm, i, hi, hx⟩ := hx
  exact ⟨m, hm, i, hi, mem_nodes_next hx hn⟩

theorem table_linked (hm : m < C.numSegments) (hi : i < s.buckets (s.segments m))
    (hn : s.table (s.segments m) i ≠ .null) : Linked C s (s.table (s.segments m) i) := by
  have hp := (h m hm).path i hi
  refine ⟨m, hm, i, hi, ?_⟩
  rcases hl : s.chain (s.segments m) i with _ | ⟨w, l⟩
  · rw [hl] at hp
    exact absurd hp hn
  · rw [hl] at hp
    rw [hp.1]
    exact List.mem_cons_self

end Wf

/-! ### A store to a link -/

/-- The last node of a list, `NULL` if there is none. -/
def LastOf (l : List (Ptr T)) (pred : Ptr T) : Prop := l = [] ∧ pred = .null ∨ ∃ l', l = l' ++ [pred]

theorem LastOf.nil : LastOf ([] : List (Ptr T)) .null := Or.inl ⟨rfl, rfl⟩

theorem LastOf.append (l : List (Ptr T)) (x : Ptr T) : LastOf (l ++ [x]) x := Or.inr ⟨l, rfl⟩

section setLink

variable {A B B' : List (Ptr T)} {pred : Ptr T}

theorem memory_setNext (s : Chm T K V Λ) (q : Ptr T) (hx : x ≠ y) :
    (s.setNext y q).memory.mem x = s.memory.mem x :=
  s.memory.mem_modify_of_ne y x (fun n => { n with next := q }) hx

theorem next_setNext_self (s : Chm T K V Λ) (y q : Ptr T) : (s.setNext y q).next y = q :=
  congrArg ChmNode.next (s.memory.mem_modify_self y fun n => { n with next := q })

theorem key_setNext (s : Chm T K V Λ) (y q : Ptr T) : (s.setNext y q).key = s.key :=
  funext fun x => s.memory.field_modify y x (f := fun n => { n with next := q }) ChmNode.key fun _ => rfl

theorem val_setNext (s : Chm T K V Λ) (y q : Ptr T) : (s.setNext y q).val = s.val :=
  funext fun x => s.memory.field_modify y x (f := fun n => { n with next := q }) ChmNode.val fun _ => rfl

theorem memory_setLink (s : Chm T K V Λ) (g : SegPtr T) (i : ℕ) (q : Ptr T) (hx : x ≠ pred) :
    (s.setLink g i pred q).memory.mem x = s.memory.mem x := by
  unfold Chm.setLink
  split_ifs
  · exact memory_setNext s q hx
  · rfl

theorem key_setLink (s : Chm T K V Λ) (g : SegPtr T) (i : ℕ) (pred q : Ptr T) :
    (s.setLink g i pred q).key = s.key := by
  unfold Chm.setLink
  split_ifs
  · exact key_setNext s pred q
  · rfl

theorem val_setLink (s : Chm T K V Λ) (g : SegPtr T) (i : ℕ) (pred q : Ptr T) :
    (s.setLink g i pred q).val = s.val := by
  unfold Chm.setLink
  split_ifs
  · exact val_setNext s pred q
  · rfl

theorem segments_setLink (s : Chm T K V Λ) (g : SegPtr T) (i : ℕ) (pred q : Ptr T) :
    (s.setLink g i pred q).segments = s.segments := by
  unfold Chm.setLink
  split_ifs <;> rfl

theorem shape_setTable (s : Chm T K V Λ) {g h : SegPtr T} (i : ℕ) (q : Ptr T) (hh : h ≠ g) :
    (s.setTable g i q).shape h = s.shape h := by
  have hm := s.segs.mem_modify_of_ne g h (fun n => { n with table := Function.update n.table i q }) hh
  exact congrArg (fun n => (n.numBuckets, n.table)) hm

theorem shape_setTable_self (s : Chm T K V Λ) (g : SegPtr T) (i : ℕ) (q : Ptr T) :
    (s.setTable g i q).shape g = (s.buckets g, Function.update (s.table g) i q) := by
  have hm := s.segs.mem_modify_self g fun n => { n with table := Function.update n.table i q }
  exact congrArg (fun n => (n.numBuckets, n.table)) hm

theorem shape_setLink (s : Chm T K V Λ) {g h : SegPtr T} (i : ℕ) (pred q : Ptr T) (hh : h ≠ g) :
    (s.setLink g i pred q).shape h = s.shape h := by
  unfold Chm.setLink
  split_ifs
  · rfl
  · exact shape_setTable s i q hh

theorem buckets_setLink (s : Chm T K V Λ) (g h : SegPtr T) (i : ℕ) (pred q : Ptr T) :
    (s.setLink g i pred q).buckets h = s.buckets h := by
  by_cases hh : h = g
  · subst hh
    unfold Chm.setLink
    split_ifs
    · rfl
    · rw [Chm.buckets, shape_setTable_self]
  · rw [Chm.buckets, shape_setLink s i pred q hh, Chm.buckets]

theorem table_setLink (s : Chm T K V Λ) (g : SegPtr T) (pred q : Ptr T) {j : ℕ} (hj : j ≠ i) :
    (s.setLink g i pred q).table g j = s.table g j := by
  unfold Chm.setLink
  split_ifs
  · rfl
  · rw [Chm.table, shape_setTable_self]
    exact Function.update_of_ne hj ..

/-- **The nodes behind `A` become `B'`.** -/
theorem setLink_path (h : Path s.next .null (s.table g i) (A ++ B)) (hp : LastOf A pred)
    (hq : Path s.next .null q B') (hd : ∀ x ∈ A, x ∉ B') :
    Path (s.setLink g i pred q).next .null ((s.setLink g i pred q).table g i) (A ++ B') := by
  rcases hp with ⟨rfl, rfl⟩ | ⟨A, rfl⟩
  · have ht : (s.setTable g i q).table g i = q := by
      rw [Chm.table, shape_setTable_self]
      exact Function.update_self ..
    rw [Chm.setLink, if_neg (not_not.mpr rfl), ht]
    exact hq
  · rw [List.append_assoc] at h ⊢
    have hmem : pred ∈ A ++ ([pred] ++ B) := by simp
    have h0 : pred ≠ .null := h.ne_nil hmem
    have hnext : ∀ {x}, x ≠ pred → (s.setLink g i pred q).next x = s.next x :=
      fun hx => congrArg ChmNode.next (memory_setLink s g i q hx)
    have hself : (s.setLink g i pred q).next pred = q := by
      rw [Chm.setLink, if_pos h0]
      exact next_setNext_self s pred q
    have ht : (s.setLink g i pred q).table g i = s.table g i := by
      rw [Chm.setLink, if_pos h0]
      rfl
    rw [ht]
    refine h.redirect ?_ fun x hx => hnext ?_
    · rw [hself]
      refine hq.congr fun x hx => hnext ?_
      rintro rfl
      exact hd x (by simp) hx
    · rintro rfl
      have hnd := h.nodup
      rw [List.nodup_append] at hnd
      exact hnd.2.2 x hx x (by simp) rfl

theorem setLink_chain (h : Path s.next .null (s.table g i) (s.chain g i)) (hc : s.chain g i = A ++ B)
    (hp : LastOf A pred) (hq : Path s.next .null q B') (hd : ∀ x ∈ A, x ∉ B') :
    (s.setLink g i pred q).chain g i = A ++ B' :=
  (setLink_path (hc ▸ h) hp hq hd).nodes_eq

end setLink

/-! ### What a thread has for itself -/

section own

variable (C)

/-- A node of thread `t` that was never linked. -/
def OwnNode (S : Set (Chm T K V Λ)) (t : T) (x : Ptr T) : Prop :=
  (∃ i, x = .node t i) ∧ ¬ Met (Linked C) S x

/-- A segment of thread `t` that was never installed. -/
def OwnSeg (S : Set (Chm T K V Λ)) (t : T) (g : SegPtr T) : Prop :=
  (∃ i, g = .node (some t) i) ∧ ¬ Known C S g

/-- Every state of the past was well-formed, and a node that was linked shows
what it showed when it was. -/
structure HeapOk (S : Set (Chm T K V Λ)) (s : Chm T K V Λ) : Prop where
  mem : s ∈ S
  wf : ∀ s₀ ∈ S, Wf C s₀
  hind : Hindsight (Linked C) (fun s x => s.memory.mem x) S s
  alloc : ∀ x, Met (Linked C) S x → s.memory.Allocated x

/-- A step of thread `t` that changes only what is its own and, if it may, the
`n`-th segment. -/
structure Local (S : Set (Chm T K V Λ)) (t : T) (n : ℕ) (s s' : Chm T K V Λ) : Prop where
  wf : Wf C s'
  key : ∀ x, ¬ OwnNode C S t x → s'.key x = s.key x
  val : ∀ x, ¬ OwnNode C S t x → s'.val x = s.val x
  node : ∀ x, ¬ OwnNode C S t x → ¬ LinkedAt s n x → s'.memory.mem x = s.memory.mem x
  unlinked : ∀ x, ¬ OwnNode C S t x → ¬ Linked C s' x → s'.memory.mem x = s.memory.mem x
  shape : ∀ g, ¬ OwnSeg C S t g → g ≠ s.segments n → s'.shape g = s.shape g
  replaced : ∀ g, ¬ OwnSeg C S t g → g ≠ s'.segments n → s'.shape g = s.shape g
  buckets : ∀ g, ¬ OwnSeg C S t g → s'.buckets g = s.buckets g
  segments : ∀ m, m ≠ n → s'.segments m = s.segments m
  installed : s'.segments n = s.segments n ∨ OwnSeg C S t (s'.segments n)
  linked : ∀ x, Linked C s' x → Linked C s x ∨ (OwnNode C S t x ∧ s'.memory.Allocated x)
  count : ∀ u, s.memory.count u ≤ s'.memory.count u

variable {C}

theorem not_own_of_met (h : Met (Linked C) S x) : ¬ OwnNode C S t x := fun ho => ho.2 h

theorem not_ownSeg_of_known (h : Known C S g) : ¬ OwnSeg C S t g := fun ho => ho.2 h

theorem OwnNode.ne (h : OwnNode C S t x) (hut : u ≠ t) : ¬ OwnNode C S u x := by
  rintro ⟨⟨j, rfl⟩, -⟩
  obtain ⟨⟨i, hi⟩, -⟩ := h
  cases hi
  exact hut rfl

theorem OwnSeg.ne (h : OwnSeg C S t g) (hut : u ≠ t) : ¬ OwnSeg C S u g := by
  rintro ⟨⟨j, rfl⟩, -⟩
  obtain ⟨⟨i, hi⟩, -⟩ := h
  cases hi
  exact hut rfl

namespace HeapOk

variable (h : HeapOk C S s)

include h

theorem met (hx : Linked C s x) : Met (Linked C) S x := ⟨s, h.mem, hx⟩

/-- Behind a node that was linked is a node that was, or the end. -/
theorem met_next (hx : Met (Linked C) S x) (hn : s.next x ≠ .null) : Met (Linked C) S (s.next x) := by
  obtain ⟨s₀, h0, hl, hv⟩ := h.hind x hx
  have he : s₀.next x = s.next x := congrArg ChmNode.next hv
  refine ⟨s₀, h0, ?_⟩
  rw [← he] at hn ⊢
  exact (h.wf s₀ h0).next_linked hl hn

theorem met_reach (hx : Met (Linked C) S x) (hr : Reach s.next .null x y) (hy : y ≠ .null) :
    Met (Linked C) S y := by
  induction hr with
  | refl => exact hx
  | @tail y z _ hyz ih =>
    obtain ⟨hne, rfl⟩ := hyz
    exact h.met_next (ih hne) hy

/-- **The heap after a step.** -/
theorem step (hl : Local C S t m s s') : HeapOk C (insert s' S) s' where
  mem := Set.mem_insert _ _
  wf := by
    rintro s₀ (rfl | h0)
    · exact hl.wf
    · exact h.wf s₀ h0
  hind := h.hind.step fun x hx hn => hl.unlinked x (not_own_of_met hx) hn
  alloc := by
    rintro x ⟨s₀, rfl | h0, hx⟩
    · rcases hl.linked x hx with hx | ⟨-, hx⟩
      · exact (h.alloc x (h.met hx)).mono hl.count
      · exact hx
    · exact (h.alloc x ⟨s₀, h0, hx⟩).mono hl.count

/-- What was linked after the step. -/
theorem met_step (hl : Local C S t m s s') (hx : Met (Linked C) (insert s' S) x) :
    Met (Linked C) S x ∨ OwnNode C S t x := by
  obtain ⟨s₀, rfl | h0, hx⟩ := hx
  · exact (hl.linked x hx).imp h.met And.left
  · exact Or.inl ⟨s₀, h0, hx⟩

end HeapOk

/-- A node of another thread stays its own. -/
theorem OwnNode.step (ho : OwnNode C S u x) (h : HeapOk C S s) (hl : Local C S t m s s') (hut : u ≠ t) :
    OwnNode C (insert s' S) u x := by
  refine ⟨ho.1, fun hx => ?_⟩
  rcases h.met_step hl hx with hx | hx
  · exact ho.2 hx
  · exact hx.ne hut ho

theorem OwnSeg.step (ho : OwnSeg C S u g) (hs : s ∈ S) (hl : Local C S t m s s') (hut : u ≠ t) :
    OwnSeg C (insert s' S) u g := by
  refine ⟨ho.1, ?_⟩
  rintro ⟨s₀, rfl | h0, j, hj, rfl⟩
  · by_cases hjm : j = m
    · subst hjm
      rcases hl.installed with he | hi
      · exact ho.2 ⟨s, hs, j, hj, he.symm⟩
      · exact hi.ne hut ho
    · exact ho.2 ⟨s, hs, j, hj, (hl.segments j hjm).symm⟩
  · exact ho.2 ⟨s₀, h0, j, hj, rfl⟩

end own

/-! ### An update in place -/

section update

variable {A B B' : List (Ptr T)} {pred : Ptr T}

/-- A store to the link behind the nodes `A` of bucket `i` of the `n`-th segment. -/
structure Update (C : ChmConfig K) (S : Set (Chm T K V Λ)) (t : T) (s : Chm T K V Λ) (m i : ℕ)
    (A B B' : List (Ptr T)) (pred q : Ptr T) : Prop where
  seg : m < C.numSegments
  apart : ∀ j < C.numSegments, j ≠ m → s.segments j ≠ s.segments m
  bucket : i < s.buckets (s.segments m)
  chain : s.chain (s.segments m) i = A ++ B
  last : LastOf A pred
  path : Path s.next .null q B'
  own : ∀ x ∈ B', x ∈ B ∨ OwnNode C S t x ∧ s.memory.Allocated x
  place : ∀ x ∈ B', C.segNum (s.key x) = m ∧ C.bucket (s.buckets (s.segments m)) (s.key x) = i
  keys : ((A ++ B').map s.key).Nodup

namespace Update

variable (U : Update C S t s m i A B B' pred q) (h : Wf C s)

include U

theorem disjoint : ∀ x ∈ A, x ∉ B' := by
  intro x hx hx'
  have hk := U.keys
  rw [List.map_append, List.nodup_append] at hk
  exact hk.2.2 _ (List.mem_map_of_mem hx) _ (List.mem_map_of_mem hx') rfl

theorem pred_mem (hp : pred ≠ .null) : pred ∈ A := by
  rcases U.last with ⟨-, h0⟩ | ⟨A', rfl⟩
  · exact absurd h0 hp
  · simp

include h

theorem new_chain : (s.setLink (s.segments m) i pred q).chain (s.segments m) i = A ++ B' :=
  setLink_chain ((h m U.seg).path i U.bucket) U.chain U.last U.path U.disjoint

/-- The pointer that changes belongs to this list. -/
theorem ne_pred {j i' : ℕ} (hj : j < C.numSegments) (hi' : i' < s.buckets (s.segments j))
    (hne : j ≠ m ∨ i' ≠ i) (hx : x ∈ s.chain (s.segments j) i') : x ≠ pred := by
  rintro rfl
  have hA : x ∈ s.chain (s.segments m) i := by
    rw [U.chain]
    exact List.mem_append_left _ (U.pred_mem ((h j hj).ne_null hi' hx))
  obtain ⟨h1, h2⟩ := (h j hj).place i' hi' x hx
  obtain ⟨h3, h4⟩ := (h m U.seg).place i U.bucket x hA
  obtain rfl := h1.symm.trans h3
  exact hne.elim (fun h => h rfl) fun h => h (h2.symm.trans h4)

theorem table_eq {j i' : ℕ} (hj : j < C.numSegments) (hne : j ≠ m ∨ i' ≠ i) :
    (s.setLink (s.segments m) i pred q).table (s.segments j) i' = s.table (s.segments j) i' := by
  by_cases hjm : j = m
  · subst hjm
    exact table_setLink s _ pred q (hne.resolve_left (not_not.mpr rfl))
  · rw [Chm.table, shape_setLink s i pred q (U.apart j hj hjm), Chm.table]

theorem old_path {j i' : ℕ} (hj : j < C.numSegments) (hi' : i' < s.buckets (s.segments j))
    (hne : j ≠ m ∨ i' ≠ i) : Path (s.setLink (s.segments m) i pred q).next .null
      ((s.setLink (s.segments m) i pred q).table (s.segments j) i') (s.chain (s.segments j) i') := by
  rw [U.table_eq h hj hne]
  exact ((h j hj).path i' hi').congr fun x hx =>
    congrArg ChmNode.next (memory_setLink s _ i q (U.ne_pred h hj hi' hne hx))

theorem old_chain {j i' : ℕ} (hj : j < C.numSegments) (hi' : i' < s.buckets (s.segments j))
    (hne : j ≠ m ∨ i' ≠ i) : (s.setLink (s.segments m) i pred q).chain (s.segments j) i' =
      s.chain (s.segments j) i' := (U.old_path h hj hi' hne).nodes_eq

theorem wf : Wf C (s.setLink (s.segments m) i pred q) := by
  intro j hj
  rw [segments_setLink]
  have hw := h j hj
  refine ⟨by rw [buckets_setLink]; exact hw.pow, fun i' hi' => ?_, fun i' hi' x hx => ?_, fun i' hi' => ?_⟩
  all_goals rw [buckets_setLink] at hi'
  all_goals by_cases hne : j ≠ m ∨ i' ≠ i
  · rw [U.old_chain h hj hi' hne]
    exact U.old_path h hj hi' hne
  · obtain ⟨rfl, rfl⟩ : j = m ∧ i' = i := by simpa [not_or] using hne
    rw [U.new_chain h]
    exact setLink_path (U.chain ▸ (h j hj).path i' hi') U.last U.path U.disjoint
  · rw [U.old_chain h hj hi' hne] at hx
    rw [buckets_setLink, key_setLink]
    exact hw.place i' hi' x hx
  · obtain ⟨rfl, rfl⟩ : j = m ∧ i' = i := by simpa [not_or] using hne
    rw [U.new_chain h] at hx
    rw [buckets_setLink, key_setLink]
    rcases List.mem_append.mp hx with hx | hx
    · exact hw.place i' hi' x (by rw [U.chain]; exact List.mem_append_left _ hx)
    · exact U.place x hx
  · rw [U.old_chain h hj hi' hne, key_setLink]
    exact hw.keys i' hi'
  · obtain ⟨rfl, rfl⟩ : j = m ∧ i' = i := by simpa [not_or] using hne
    rw [U.new_chain h, key_setLink]
    exact U.keys

/-- **The linked nodes after an update.** -/
theorem linked_iff : Linked C (s.setLink (s.segments m) i pred q) x ↔
    Linked C s x ∧ x ∉ B ∨ x ∈ B' := by
  have hB : ∀ {y}, y ∈ B → y ∈ s.chain (s.segments m) i := fun hy => by
    rw [U.chain]
    exact List.mem_append_right _ hy
  constructor
  · rintro ⟨j, hj, i', hi', hx⟩
    rw [segments_setLink] at hi' hx
    rw [buckets_setLink] at hi'
    by_cases hne : j ≠ m ∨ i' ≠ i
    · rw [U.old_chain h hj hi' hne] at hx
      refine Or.inl ⟨⟨j, hj, i', hi', hx⟩, fun hxB => ?_⟩
      obtain ⟨h1, h2⟩ := (h j hj).place i' hi' x hx
      obtain ⟨h3, h4⟩ := (h m U.seg).place i U.bucket x (hB hxB)
      obtain rfl := h1.symm.trans h3
      exact hne.elim (fun h => h rfl) fun h => h (h2.symm.trans h4)
    · obtain ⟨rfl, rfl⟩ : j = m ∧ i' = i := by simpa [not_or] using hne
      rw [U.new_chain h] at hx
      rcases List.mem_append.mp hx with hx | hx
      · refine Or.inl ⟨⟨j, hj, i', hi', by rw [U.chain]; exact List.mem_append_left _ hx⟩, fun hxB => ?_⟩
        have hnd := ((h j hj).path i' hi').nodup
        rw [U.chain, List.nodup_append] at hnd
        exact hnd.2.2 x hx x hxB rfl
      · exact Or.inr hx
  · rintro (⟨⟨j, hj, i', hi', hx⟩, hxB⟩ | hx)
    · refine ⟨j, hj, i', by rw [segments_setLink, buckets_setLink]; exact hi', ?_⟩
      rw [segments_setLink]
      by_cases hne : j ≠ m ∨ i' ≠ i
      · rwa [U.old_chain h hj hi' hne]
      · obtain ⟨rfl, rfl⟩ : j = m ∧ i' = i := by simpa [not_or] using hne
        rw [U.chain] at hx
        rw [U.new_chain h]
        exact List.mem_append_left _ ((List.mem_append.mp hx).resolve_right hxB)
    · refine ⟨m, U.seg, i, by rw [segments_setLink, buckets_setLink]; exact U.bucket, ?_⟩
      rw [segments_setLink, U.new_chain h]
      exact List.mem_append_right _ hx

omit h in
theorem pred_linked (hp : pred ≠ .null) : LinkedAt s m pred :=
  ⟨i, U.bucket, by rw [U.chain]; exact List.mem_append_left _ (U.pred_mem hp)⟩

/-- **An update changes the segment it is made to.** -/
theorem toLocal : Local C S t m s (s.setLink (s.segments m) i pred q) where
  wf := U.wf h
  key x _ := congrFun (key_setLink s _ i pred q) x
  val x _ := congrFun (val_setLink s _ i pred q) x
  node x _ hx := by
    by_cases hp : x = pred
    · subst hp
      by_cases h0 : x = .null
      · rw [Chm.setLink, if_neg (not_not.mpr h0)]
        rfl
      · exact absurd (U.pred_linked h0) hx
    · exact memory_setLink s _ i q hp
  unlinked x _ hx := by
    by_cases hp : x = pred
    · subst hp
      by_cases h0 : x = .null
      · rw [Chm.setLink, if_neg (not_not.mpr h0)]
        rfl
      · refine absurd ?_ hx
        refine ⟨m, U.seg, i, by rw [segments_setLink, buckets_setLink]; exact U.bucket, ?_⟩
        rw [segments_setLink, U.new_chain h]
        exact List.mem_append_left _ (U.pred_mem h0)
    · exact memory_setLink s _ i q hp
  shape g _ hg := shape_setLink s i pred q hg
  replaced g _ hg := shape_setLink s i pred q (by rwa [segments_setLink] at hg)
  buckets g _ := buckets_setLink s _ g i pred q
  segments j _ := by rw [segments_setLink]
  installed := Or.inl (by rw [segments_setLink])
  linked x hx := by
    have hall : (s.setLink (s.segments m) i pred q).memory.count = s.memory.count := by
      unfold Chm.setLink
      split_ifs <;> rfl
    rcases (U.linked_iff h).mp hx with ⟨hx, -⟩ | hx
    · exact Or.inl hx
    · rcases U.own x hx with hx | ⟨h1, h2⟩
      · exact Or.inl ⟨m, U.seg, i, U.bucket, by rw [U.chain]; exact List.mem_append_right _ hx⟩
      · exact Or.inr ⟨h1, h2.mono fun u => by rw [hall]⟩
  count u := by
    unfold Chm.setLink
    split_ifs <;> exact le_refl _

end Update

/-- `pred->next = x->next` or `*bucket = x->next`. -/
theorem update_unlink (h : Wf C s) (hm : m < C.numSegments)
    (ha : ∀ j < C.numSegments, j ≠ m → s.segments j ≠ s.segments m) (hi : i < s.buckets (s.segments m))
    (hc : s.chain (s.segments m) i = A ++ x :: B) (hp : LastOf A pred) :
    Update C S t s m i A (x :: B) B pred (s.next x) where
  seg := hm
  apart := ha
  bucket := hi
  chain := hc
  last := hp
  path := Path.drop (hc ▸ (h m hm).path i hi)
  own y hy := Or.inl (List.mem_cons_of_mem _ hy)
  place y hy := (h m hm).place i hi y (by rw [hc]; simp [hy])
  keys := by
    have hk := (h m hm).keys i hi
    rw [hc] at hk
    refine hk.sublist (List.Sublist.map _ ?_)
    exact List.Sublist.append_left (List.sublist_cons_self x B) A

/-- An unlinked node is off, and no other. -/
theorem linked_unlink (h : Wf C s) (U : Update C S t s m i A (x :: B) B pred q) :
    Linked C (s.setLink (s.segments m) i pred q) y ↔ Linked C s y ∧ y ≠ x := by
  have hxB : x ∉ B := by
    have hnd := ((h m U.seg).path i U.bucket).nodup
    rw [U.chain, List.nodup_append] at hnd
    exact (List.nodup_cons.mp hnd.2.1).1
  rw [U.linked_iff h]
  constructor
  · rintro (⟨h1, h2⟩ | h1)
    · exact ⟨h1, fun he => h2 (he ▸ List.mem_cons_self)⟩
    · have hy : y ∈ s.chain (s.segments m) i := by
        rw [U.chain]
        exact List.mem_append_right _ (List.mem_cons_of_mem _ h1)
      exact ⟨⟨m, U.seg, i, U.bucket, hy⟩, fun he => hxB (he ▸ h1)⟩
  · rintro ⟨h1, h2⟩
    by_cases hy : y ∈ B
    · exact Or.inr hy
    · exact Or.inl ⟨h1, fun h3 => (List.mem_cons.mp h3).elim h2 hy⟩

theorem absMap_unlink (h : Wf C s) (U : Update C S t s m i A (x :: B) B pred q) :
    absMap C (s.setLink (s.segments m) i pred q) = Function.update (absMap C s) (s.key x) none := by
  have hx : x ∈ s.chain (s.segments m) i := by
    rw [U.chain]
    exact List.mem_append_right _ List.mem_cons_self
  rw [absMap, key_setLink, val_setLink]
  exact Chain.mapOf_remove (fun y => linked_unlink h U) ⟨m, U.seg, i, U.bucket, hx⟩ (fun _ _ => rfl)
    (fun _ _ => rfl) h.unique

end update

/-! ### A step that nobody else sees -/

/-- Thread `t` writes to what is its own. -/
structure Private (C : ChmConfig K) (S : Set (Chm T K V Λ)) (t : T) (s s' : Chm T K V Λ) : Prop where
  segments : s'.segments = s.segments
  shape : ∀ g, ¬ OwnSeg C S t g → s'.shape g = s.shape g
  node : ∀ x, ¬ OwnNode C S t x → s'.memory.mem x = s.memory.mem x
  count : ∀ u, s.memory.count u ≤ s'.memory.count u

namespace Private

variable (P : Private C S t s s') (h : HeapOk C S s)

include P h

theorem chain_eq (hm : m < C.numSegments) (hi : i < s.buckets (s.segments m)) :
    s'.chain (s.segments m) i = s.chain (s.segments m) i :=
  (h.wf s h.mem m hm).chain_congr (P.shape _ (not_ownSeg_of_known ⟨s, h.mem, m, hm, rfl⟩))
    (fun j hj x hx => P.node x (not_own_of_met (h.met ⟨m, hm, j, hj, hx⟩))) hi

theorem wf : Wf C s' := by
  intro m hm
  rw [P.segments]
  exact (h.wf s h.mem m hm).congr (P.shape _ (not_ownSeg_of_known ⟨s, h.mem, m, hm, rfl⟩))
    fun j hj x hx => P.node x (not_own_of_met (h.met ⟨m, hm, j, hj, hx⟩))

theorem linked_iff : Linked C s' x ↔ Linked C s x := by
  have hb : ∀ m < C.numSegments, s'.buckets (s'.segments m) = s.buckets (s.segments m) := by
    intro m hm
    rw [P.segments]
    exact congrArg Prod.fst (P.shape _ (not_ownSeg_of_known ⟨s, h.mem, m, hm, rfl⟩))
  constructor
  · rintro ⟨m, hm, i, hi, hx⟩
    rw [hb m hm] at hi
    rw [P.segments, P.chain_eq h hm hi] at hx
    exact ⟨m, hm, i, hi, hx⟩
  · rintro ⟨m, hm, i, hi, hx⟩
    refine ⟨m, hm, i, by rw [hb m hm]; exact hi, ?_⟩
    rw [P.segments, P.chain_eq h hm hi]
    exact hx

theorem absMap_eq : absMap C s' = absMap C s := by
  refine Chain.mapOf_congr (fun x => P.linked_iff h) (fun x hx => ?_) (fun x hx => ?_)
    (h.wf s h.mem).unique
  · exact congrArg ChmNode.key (P.node x (not_own_of_met (h.met hx)))
  · exact congrArg ChmNode.val (P.node x (not_own_of_met (h.met hx)))

theorem own (hx : OwnNode C S u x) : OwnNode C (insert s' S) u x := by
  refine ⟨hx.1, ?_⟩
  rintro ⟨s₀, rfl | h0, hl⟩
  · exact hx.2 (h.met ((P.linked_iff h).mp hl))
  · exact hx.2 ⟨s₀, h0, hl⟩

omit h in
theorem ownSeg (hs : s ∈ S) (hg : OwnSeg C S u g) : OwnSeg C (insert s' S) u g := by
  refine ⟨hg.1, ?_⟩
  rintro ⟨s₀, rfl | h0, j, hj, rfl⟩
  · exact hg.2 ⟨s, hs, j, hj, by rw [P.segments]⟩
  · exact hg.2 ⟨s₀, h0, j, hj, rfl⟩

theorem toLocal (n : ℕ) : Local C S t n s s' where
  wf := P.wf h
  key x hx := congrArg ChmNode.key (P.node x hx)
  val x hx := congrArg ChmNode.val (P.node x hx)
  node x hx _ := P.node x hx
  unlinked x hx _ := P.node x hx
  shape g hg _ := P.shape g hg
  replaced g hg _ := P.shape g hg
  buckets g hg := congrArg Prod.fst (P.shape g hg)
  segments j _ := by rw [P.segments]
  installed := Or.inl (by rw [P.segments])
  linked x hx := Or.inl ((P.linked_iff h).mp hx)
  count := P.count

end Private

section writes

theorem shape_modifySeg (s : Chm T K V Λ) (g h : SegPtr T)
    {f : ConcHashmapSegment T Λ → ConcHashmapSegment T Λ}
    (hf : ∀ x, ((f x).numBuckets, (f x).table) = (x.numBuckets, x.table)) :
    (s.modifySeg g f).shape h = s.shape h :=
  s.segs.field_modify g h (fun x => (x.numBuckets, x.table)) hf

/-- Locks and sizes are not looked at by walks. -/
theorem Private.modifySeg (C : ChmConfig K) (S : Set (Chm T K V Λ)) (t : T) (s : Chm T K V Λ)
    (g : SegPtr T) {f : ConcHashmapSegment T Λ → ConcHashmapSegment T Λ}
    (hf : ∀ x, ((f x).numBuckets, (f x).table) = (x.numBuckets, x.table)) :
    Private C S t s (s.modifySeg g f) :=
  ⟨rfl, fun h _ => shape_modifySeg s g h hf, fun _ _ => rfl, fun _ => le_refl _⟩

theorem Private.setTable (s : Chm T K V Λ) (i : ℕ) (q : Ptr T) (hg : OwnSeg C S t g) :
    Private C S t s (s.setTable g i q) where
  segments := rfl
  shape _ hh := shape_setTable s i q fun he => hh (he ▸ hg)
  node _ _ := rfl
  count _ := le_refl _

theorem Private.setNext (s : Chm T K V Λ) (q : Ptr T) (hx : OwnNode C S t x) :
    Private C S t s (s.setNext x q) where
  segments := rfl
  shape _ _ := rfl
  node _ hy := memory_setNext s q fun he => hy (he ▸ hx)
  count _ := le_refl _

/-- The next node of a thread is its own. -/
theorem HeapOk.own_next (h : HeapOk C S s) (t : T) : OwnNode C S t (.node t (s.memory.count t)) :=
  ⟨⟨_, rfl⟩, fun hm => s.memory.not_allocated_next t (h.alloc _ hm)⟩

theorem Private.allocateLlSimple (h : HeapOk C S s) (t : T) (k : K) (v : V) (p : Ptr T) :
    Private C S t s (s.allocateLlSimple t k v p).1 where
  segments := rfl
  shape _ _ := rfl
  node y hy := s.memory.mem_allocate_of_ne y ⟨k, v, p⟩ t fun he => hy (he ▸ h.own_next t)
  count u := s.memory.count_le_allocate ⟨k, v, p⟩ t u

theorem shape_allocateSegment (s : Chm T K V Λ) (w : Λ) (t : T) (capacity loadFactor : ℕ)
    (hg : g ≠ .node (some t) (s.segs.count (some t))) :
    (s.allocateSegment w t capacity loadFactor).1.shape g = s.shape g :=
  congrArg (fun x => (x.numBuckets, x.table))
    (s.segs.mem_allocate_of_ne g (newSegment w capacity loadFactor) (some t) hg)

theorem Private.allocateSegment {w : Λ} (capacity loadFactor : ℕ)
    (hk : ¬ Known C S (.node (some t) (s.segs.count (some t)))) :
    Private C S t s (s.allocateSegment w t capacity loadFactor).1 where
  segments := rfl
  shape _ hg := shape_allocateSegment s w t capacity loadFactor fun he => hg (he ▸ ⟨⟨_, rfl⟩, hk⟩)
  node _ _ := rfl
  count _ := le_refl _

/-- Nothing that walks look at has changed. -/
theorem Private.of_eq (hs : s'.segments = s.segments) (hshape : s'.shape = s.shape)
    (hm : s'.memory.mem = s.memory.mem) (hc : s'.memory.count = s.memory.count) : Private C S t s s' :=
  ⟨hs, fun g _ => congrFun hshape g, fun x _ => congrFun hm x, fun u => by rw [hc]⟩

end writes

/-! ### A new segment -/

section publish

variable (h : Wf C s) (hm : m < C.numSegments) (hg : SegWf C s m g)

include h hg

theorem wf_publish : Wf C (publishAt s m g) := by
  intro j hj
  by_cases hjm : j = m
  · subst hjm
    rw [segments_publish_self]
    exact ⟨hg.pow, hg.path, hg.place, hg.keys⟩
  · rw [segments_publish_of_ne hjm]
    exact ⟨(h j hj).pow, (h j hj).path, (h j hj).place, (h j hj).keys⟩

omit h hg in
theorem linked_publish : Linked C (publishAt s m g) x ↔
    (m < C.numSegments ∧ ∃ i < s.buckets g, x ∈ s.chain g i) ∨
      ∃ j < C.numSegments, j ≠ m ∧ LinkedAt s j x := by
  constructor
  · rintro ⟨j, hj, i, hi, hx⟩
    by_cases hjm : j = m
    · subst hjm
      rw [segments_publish_self] at hi hx
      exact Or.inl ⟨hj, i, hi, hx⟩
    · rw [segments_publish_of_ne hjm] at hi hx
      exact Or.inr ⟨j, hj, hjm, i, hi, hx⟩
  · rintro (⟨hm, i, hi, hx⟩ | ⟨j, hj, hjm, i, hi, hx⟩)
    · refine ⟨m, hm, i, ?_, ?_⟩
      · rw [segments_publish_self]
        exact hi
      · rw [segments_publish_self]
        exact hx
    · refine ⟨j, hj, i, ?_, ?_⟩
      · rw [segments_publish_of_ne hjm]
        exact hi
      · rw [segments_publish_of_ne hjm]
        exact hx

theorem local_publish (ho : OwnSeg C S t g) (hx : ∀ i < s.buckets g, ∀ x ∈ s.chain g i,
    LinkedAt s m x ∨ OwnNode C S t x ∧ s.memory.Allocated x) : Local C S t m s (publishAt s m g) where
  wf := wf_publish h hg
  key _ _ := rfl
  val _ _ := rfl
  node _ _ _ := rfl
  unlinked _ _ _ := rfl
  shape _ _ _ := rfl
  replaced _ _ _ := rfl
  buckets _ _ := rfl
  segments j hj := segments_publish_of_ne hj
  installed := Or.inr (by rw [segments_publish_self]; exact ho)
  linked x hl := by
    rcases linked_publish.mp hl with ⟨hm, i, hi, hxi⟩ | ⟨j, hj, -, hxj⟩
    · exact (hx i hi x hxi).imp_left fun h1 => ⟨m, hm, h1⟩
    · exact Or.inl ⟨j, hj, hxj⟩
  count _ := le_refl _

include hm in
/-- The new segment has what the old one had, and one key more. -/
theorem absMap_publish {k : K} {v : V} (hk : C.segNum k = m) (hnew : absMap C s k = none)
    (he : ∀ k' v', (∃ i < s.buckets g, ∃ x ∈ s.chain g i, s.key x = k' ∧ s.val x = v') ↔
      (k' = k ∧ v' = v) ∨ ∃ x, LinkedAt s m x ∧ s.key x = k' ∧ s.val x = v') :
    absMap C (publishAt s m g) = Function.update (absMap C s) k (some v) := by
  have hiff : ∀ k' v', absMap C (publishAt s m g) k' = some v' ↔
      (k' = k ∧ v' = v) ∨ absMap C s k' = some v' := by
    intro k' v'
    rw [(wf_publish h hg).absMap_iff, h.absMap_iff]
    constructor
    · rintro ⟨x, hx, h1, h2⟩
      rcases linked_publish.mp hx with ⟨-, i, hi, hx⟩ | ⟨j, hj, -, hx⟩
      · rcases (he k' v').mp ⟨i, hi, x, hx, h1, h2⟩ with h3 | ⟨y, hy, h3⟩
        · exact Or.inl h3
        · exact Or.inr ⟨y, ⟨m, hm, hy⟩, h3⟩
      · exact Or.inr ⟨x, ⟨j, hj, hx⟩, h1, h2⟩
    · rintro (h3 | ⟨x, ⟨j, hj, hx⟩, h1, h2⟩)
      · obtain ⟨i, hi, x, hx, h4⟩ := (he k' v').mpr (Or.inl h3)
        exact ⟨x, linked_publish.mpr (Or.inl ⟨hm, i, hi, hx⟩), h4⟩
      · by_cases hjm : j = m
        · subst hjm
          obtain ⟨i, hi, y, hy, h4⟩ := (he k' v').mpr (Or.inr ⟨x, hx, h1, h2⟩)
          exact ⟨y, linked_publish.mpr (Or.inl ⟨hm, i, hi, hy⟩), h4⟩
        · exact ⟨x, linked_publish.mpr (Or.inr ⟨j, hj, hjm, hx⟩), h1, h2⟩
  funext k'
  refine Option.ext fun v' => ?_
  rw [hiff]
  by_cases hkk : k' = k
  · subst hkk
    rw [Function.update_self, hnew]
    simp [eq_comm]
  · rw [Function.update_of_ne hkk]
    simp [hkk]

end publish

/-! ### Walks without the lock -/

section walks

variable (C)

/-- What was installed or linked since the call shows what it showed then. -/
structure Reads (W : Set (Chm T K V Λ)) (s : Chm T K V Λ) : Prop where
  mem : s ∈ W
  node : Hindsight (Linked C) (fun s x => s.memory.mem x) W s
  seg : Hindsight (fun s g => ∃ m < C.numSegments, s.segments m = g) Chm.shape W s

/-- The key was absent at some moment since the call, or it is ahead of the
pointer `p`. -/
def Seek (W : Set (Chm T K V Λ)) (s : Chm T K V Λ) (k : K) (p : Ptr T) : Prop :=
  (∃ s₀ ∈ W, absMap C s₀ k = none) ∨ ∃ x, Reach s.next .null p x ∧ x ≠ .null ∧ s.key x = k

/-- The pointer is `NULL` or to a node that was linked since the call. -/
def Near (W : Set (Chm T K V Λ)) (p : Ptr T) : Prop := p ≠ .null → Met (Linked C) W p

variable {C} {W : Set (Chm T K V Λ)} {p : Ptr T}

theorem Reads.singleton (s : Chm T K V Λ) : Reads C {s} s :=
  ⟨rfl, .singleton s, .singleton s⟩

theorem Reads.step (hr : Reads C W s) (hW : W ⊆ S) (hl : Local C S t m s s') (hm : m < C.numSegments) :
    Reads C (insert s' W) s' where
  mem := Set.mem_insert _ _
  node := hr.node.step fun x hx hn => hl.unlinked x (not_own_of_met (hx.mono hW)) hn
  seg := hr.seg.step fun g hg hn => by
    refine hl.replaced g ?_ fun he => hn ⟨m, hm, he.symm⟩
    obtain ⟨s₀, h0, hg⟩ := hg
    exact not_ownSeg_of_known ⟨s₀, hW h0, hg⟩

/-- What a walk reads of a segment. -/
theorem Reads.near_table (hr : Reads C W s) (hW : W ⊆ S) (h : HeapOk C S s)
    (hg : Met (fun s g => ∃ m < C.numSegments, s.segments m = g) W g) (k : K) :
    Near C W (s.table g (C.bucket (s.buckets g) k)) := by
  intro hn
  obtain ⟨s₀, h0, ⟨m, hm, rfl⟩, hs⟩ := hr.seg g hg
  have hw := h.wf s₀ (hW h0)
  have hb : s₀.buckets (s₀.segments m) = s.buckets (s₀.segments m) := congrArg Prod.fst hs
  have ht : s₀.table (s₀.segments m) = s.table (s₀.segments m) := congrArg Prod.snd hs
  rw [← hb, ← ht] at hn ⊢
  exact ⟨s₀, h0, hw.table_linked hm ((hw m hm).bucket_lt k) hn⟩

/-- A node that a walk met was in the map. -/
theorem Reads.found (hr : Reads C W s) (hW : W ⊆ S) (h : HeapOk C S s) (hx : Met (Linked C) W x) :
    ∃ s₀ ∈ W, absMap C s₀ (s.key x) = some (s.val x) := by
  obtain ⟨s₀, h0, hl, hv⟩ := hr.node x hx
  refine ⟨s₀, h0, ?_⟩
  have hk : s₀.key x = s.key x := congrArg ChmNode.key hv
  have hval : s₀.val x = s.val x := congrArg ChmNode.val hv
  rw [← hk, ← hval]
  exact (h.wf s₀ (hW h0)).absMap_eq_some hl

/-- A walk begins. -/
theorem Seek.start (h : Wf C s) (hs : s ∈ W) (k : K) :
    Seek C W s k (s.table (s.segments (C.segNum k))
      (C.bucket (s.buckets (s.segments (C.segNum k))) k)) := by
  rcases hv : absMap C s k with _ | v
  · exact Or.inl ⟨s, hs, hv⟩
  · obtain ⟨x, hx, rfl, -⟩ := h.absMap_iff.mp hv
    have hm := h _ (C.segNum_lt (s.key x))
    exact Or.inr ⟨x, (hm.path _ (hm.bucket_lt _)).reach (h.mem_of_linked hx), h.ne_null hx, rfl⟩

theorem Seek.next (hk : Seek C W s k p) (hne : s.key p ≠ k) : Seek C W s k (s.next p) := by
  rcases hk with hk | ⟨x, hx, h0, hxk⟩
  · exact Or.inl hk
  · refine Or.inr ⟨x, hx.next ?_, h0, hxk⟩
    rintro rfl
    exact hne hxk

/-- A walk ends. -/
theorem Seek.absent (hk : Seek C W s k .null) : ∃ s₀ ∈ W, absMap C s₀ k = none := by
  rcases hk with hk | ⟨x, hx, h0, -⟩
  · exact hk
  · exact absurd hx.eq_nil h0

theorem Seek.insert_left (h : ∃ s₀ ∈ W, absMap C s₀ k = none) (p : Ptr T) :
    Seek C (insert s' W) s' k p :=
  let ⟨s₀, h0, he⟩ := h
  Or.inl ⟨s₀, Set.mem_insert_of_mem _ h0, he⟩

/-- A step that changes no pointer ahead. -/
theorem Seek.congr (hk : Seek C W s k p) (h : HeapOk C S s) (hp : Near C S p)
    (hm : ∀ x, Met (Linked C) S x → s'.memory.mem x = s.memory.mem x) : Seek C (insert s' W) s' k p := by
  rcases hk with hk | ⟨x, hx, h0, rfl⟩
  · exact Seek.insert_left hk p
  · have hmet : ∀ y, Reach s.next .null p y → y ≠ .null → Met (Linked C) S y := by
      intro y hy hy0
      refine h.met_reach (hp ?_) hy hy0
      rintro rfl
      exact hy0 hy.eq_nil
    refine Or.inr ⟨x, hx.congr fun y hy hy0 => ?_, h0, ?_⟩
    · exact congrArg ChmNode.next (hm y (hmet y hy hy0))
    · exact congrArg ChmNode.key (hm x (hmet x hx h0))

section update

variable {A B B' : List (Ptr T)} {pred : Ptr T}

/-- The link that an update changes. -/
theorem Update.old_link (U : Update C S t s m i A (x :: B) B' pred q) (h : Wf C s) :
    pred = .null ∧ s.table (s.segments m) i = x ∨ s.next pred = x := by
  have hp := (h m U.seg).path i U.bucket
  rw [U.chain] at hp
  rcases U.last with ⟨rfl, hp0⟩ | ⟨A', rfl⟩
  · exact Or.inl ⟨hp0, hp.1⟩
  · rw [List.append_assoc] at hp
    exact Or.inr hp.drop.1

theorem Update.old_end (U : Update C S t s m i A [] B' pred q) (h : Wf C s) :
    pred = .null ∧ s.table (s.segments m) i = .null ∨ s.next pred = .null := by
  have hp := (h m U.seg).path i U.bucket
  rw [U.chain] at hp
  rcases U.last with ⟨rfl, hp0⟩ | ⟨A', rfl⟩
  · exact Or.inl ⟨hp0, hp⟩
  · rw [List.append_assoc] at hp
    exact Or.inr hp.drop

theorem Seek.append (hk : Seek C W s k p) (h : HeapOk C S s) (U : Update C S t s m i A [] [x] pred q) :
    Seek C (insert (s.setLink (s.segments m) i pred q) W) (s.setLink (s.segments m) i pred q) k p := by
  rcases hk with hk | ⟨y, hy, h0, rfl⟩
  · exact Seek.insert_left hk p
  · refine Or.inr ⟨y, ?_, h0, congrFun (key_setLink s _ i pred q) y⟩
    have hsame : ∀ z, z ≠ pred → (s.setLink (s.segments m) i pred q).next z = s.next z :=
      fun z hz => congrArg ChmNode.next (memory_setLink s _ i q hz)
    rcases U.old_end (h.wf s h.mem) with ⟨rfl, -⟩ | hend
    · exact hy.congr fun z _ hz => hsame z hz
    · exact hy.append h0 hend fun z _ _ hz => hsame z hz

theorem Seek.unlink (hk : Seek C W s k p) (h : HeapOk C S s)
    (U : Update C S t s m i A (x :: B) B pred (s.next x)) :
    Seek C (insert (s.setLink (s.segments m) i pred (s.next x)) W)
      (s.setLink (s.segments m) i pred (s.next x)) k p := by
  rcases hk with hk | ⟨y, hy, h0, rfl⟩
  · exact Seek.insert_left hk p
  · by_cases hyx : y = x
    · -- the key is absent behind the step
      subst hyx
      refine Or.inl ⟨_, Set.mem_insert _ _, ?_⟩
      rw [absMap_unlink (h.wf s h.mem) U, Function.update_self]
    · refine Or.inr ⟨y, ?_, h0, congrFun (key_setLink s _ i pred _) y⟩
      have hsame : ∀ z, z ≠ pred → (s.setLink (s.segments m) i pred (s.next x)).next z = s.next z :=
        fun z hz => congrArg ChmNode.next (memory_setLink s _ i _ hz)
      by_cases hp : pred = .null
      · subst hp
        exact hy.congr fun z _ hz => hsame z hz
      · have hself : (s.setLink (s.segments m) i pred (s.next x)).next pred = s.next x := by
          rw [Chm.setLink, if_pos hp]
          exact next_setNext_self s pred _
        have hx : s.next pred = x := (U.old_link (h.wf s h.mem)).resolve_left fun h1 => hp h1.1
        exact (hy.unlink hx hself fun z _ _ hz => hsame z hz).resolve_right fun h1 => hyx h1.1

/-- A pointer to a list is as before, or it was the one that changed. -/
theorem table_setLink_cases (s : Chm T K V Λ) (g g' : SegPtr T) (i j : ℕ) (pred q : Ptr T) :
    (s.setLink g i pred q).table g' j = s.table g' j ∨
      pred = .null ∧ g' = g ∧ j = i ∧ (s.setLink g i pred q).table g' j = q := by
  by_cases hp : pred = .null
  · by_cases hg : g' = g
    · subst hg
      by_cases hj : j = i
      · subst hj
        refine Or.inr ⟨hp, rfl, rfl, ?_⟩
        rw [Chm.setLink, if_neg (not_not.mpr hp), Chm.table, shape_setTable_self]
        exact Function.update_self ..
      · exact Or.inl (table_setLink s g' pred q hj)
    · refine Or.inl ?_
      rw [Chm.table, shape_setLink s i pred q hg, Chm.table]
  · refine Or.inl ?_
    rw [Chm.setLink, if_pos hp]
    rfl

theorem Seek.append_table {j : ℕ} (hk : Seek C W s k (s.table g j)) (h : HeapOk C S s)
    (U : Update C S t s m i A [] [x] pred q) :
    Seek C (insert (s.setLink (s.segments m) i pred q) W) (s.setLink (s.segments m) i pred q) k
      ((s.setLink (s.segments m) i pred q).table g j) := by
  rcases table_setLink_cases s (s.segments m) g i j pred q with he | ⟨hp, rfl, rfl, -⟩
  · rw [he]
    exact hk.append h U
  · -- the list was empty
    have hnull : s.table (s.segments m) j = .null := by
      rcases U.old_end (h.wf s h.mem) with ⟨-, h1⟩ | h1
      · exact h1
      · rcases U.last with ⟨hA, -⟩ | ⟨A', hA⟩
        · have hpath := (h.wf s h.mem m U.seg).path j U.bucket
          rw [U.chain, hA] at hpath
          exact hpath
        · have hpm := (h.wf s h.mem m U.seg).ne_null U.bucket (x := pred) (by rw [U.chain, hA]; simp)
          exact absurd hp hpm
    rw [hnull] at hk
    exact Seek.insert_left hk.absent _

theorem Seek.unlink_table {j : ℕ} (hk : Seek C W s k (s.table g j)) (h : HeapOk C S s)
    (U : Update C S t s m i A (x :: B) B pred (s.next x)) :
    Seek C (insert (s.setLink (s.segments m) i pred (s.next x)) W)
      (s.setLink (s.segments m) i pred (s.next x)) k
      ((s.setLink (s.segments m) i pred (s.next x)).table g j) := by
  rcases table_setLink_cases s (s.segments m) g i j pred (s.next x) with he | ⟨hp, rfl, rfl, he⟩
  · rw [he]
    exact hk.unlink h U
  · -- the list began with the node that goes
    have hx : s.table (s.segments m) j = x := by
      rcases U.last with ⟨hA, -⟩ | ⟨A', hA⟩
      · have hpath := (h.wf s h.mem m U.seg).path j U.bucket
        rw [U.chain, hA] at hpath
        exact hpath.1
      · have hpm := (h.wf s h.mem m U.seg).ne_null U.bucket (x := pred) (by rw [U.chain, hA]; simp)
        exact absurd hp hpm
    rw [he]
    rw [hx] at hk
    by_cases hxk : s.key x = k
    · refine Or.inl ⟨_, Set.mem_insert _ _, ?_⟩
      rw [absMap_unlink (h.wf s h.mem) U, hxk, Function.update_self]
    · exact (hk.next hxk).unlink h U

end update

end walks

end HashtableJava

end Ascylib
