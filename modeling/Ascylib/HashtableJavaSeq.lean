/-
# The hash table of segments, in one thread

`src/algorithms/hashtable_java.h` without other threads: each bucket is a list
of keys and values. An insert that fills its segment up moves it into one with
twice the buckets, one old bucket at a time: `chm_segment_rehash` stores the last
run of an old list (the longest end whose nodes go to one new bucket) in its new
bucket, over whatever is there, and puts copies of the rest in front.

A power of two of buckets separates: what goes to one new bucket comes from one
old bucket. Any other number does not, and the store may drop a list. The
constructor takes any number.

Key definitions: `chmSegmentRehash`, `Separates`, `Keeps`.
Key theorem: `hashtable_java_behaves`.
-/
import Ascylib.Concur.Machine
import Ascylib.HashtableJava
import Mathlib.Data.Set.Card

set_option linter.unusedSectionVars false

namespace Ascylib

open Concur

namespace HashtableJavaSeq

variable {K V : Type*}

/-! ### Code -/

/-- `conc_hashmap_segment.h`, with the lists of its nodes. -/
structure Segment (K V : Type*) where
  numBuckets : ℕ
  size : ℕ
  loadFactor : ℕ
  sizeLimit : ℕ
  table : ℕ → List (K × V)

/-- `allocate_conc_hashmap_segment(capacity, load_factor)` -/
def allocateSegment (capacity loadFactor : ℕ) : Segment K V where
  numBuckets := capacity
  size := 0
  loadFactor := loadFactor
  sizeLimit := if loadFactor * capacity = 0 then 1 else loadFactor * capacity
  table := fun _ => []

/-- `chm->segments` -/
abbrev Segments (K V : Type*) := ℕ → Segment K V

/-- The constructor. -/
def construct (C : ChmConfig K) : Segments K V := fun _ => allocateSegment C.capacitySeg C.loadFactor

/-- The list at `table[hash(key, chm->hash_seed) & seg->hash]`. -/
def Segment.chain (C : ChmConfig K) (seg : Segment K V) (key : K) : List (K × V) :=
  seg.table (C.bucket seg.numBuckets key)

/-- `seg->table[i] = l` -/
def Segment.setTable (seg : Segment K V) (i : ℕ) (l : List (K × V)) : Segment K V :=
  { seg with table := Function.update seg.table i l }

variable [DecidableEq K]

/-- The walk of `chm_contains`, and of the updates. -/
def contains (key : K) : List (K × V) → Bool
  | [] => false
  | p :: l => if p.1 = key then true else contains key l

/-- The walk of `search`. -/
def lookup [Zero V] (key : K) : List (K × V) → V
  | [] => 0
  | p :: l => if p.1 = key then p.2 else lookup key l

/-- The list without the node that `remove` finds. -/
def unlink (key : K) : List (K × V) → List (K × V)
  | [] => []
  | p :: l => if p.1 = key then l else p :: unlink key l

/-- The loop over `last`, that finds `last_run` and `last_idx`. -/
def lastRun (idx : K → ℕ) (lastIdx : ℕ) (run : List (K × V)) : List (K × V) → ℕ × List (K × V)
  | [] => (lastIdx, run)
  | p :: rest =>
    if idx p.1 ≠ lastIdx then lastRun idx (idx p.1) (p :: rest) rest else lastRun idx lastIdx run rest

/-- The loop over `p`: a copy of the node in front of its new bucket. -/
def copies (idx : K → ℕ) (table : ℕ → List (K × V)) (l : List (K × V)) : ℕ → List (K × V) :=
  l.foldl (fun table p => Function.update table (idx p.1) (p :: table (idx p.1))) table

/-- What the rehash does with the list of one old bucket. -/
def moveBucket (idx : K → ℕ) (table : ℕ → List (K × V)) : List (K × V) → ℕ → List (K × V)
  | [] => table
  | [p] => Function.update table (idx p.1) [p]
  | p :: rest =>
    let (lastIdx, run) := lastRun idx (idx p.1) (p :: rest) rest
    copies idx (Function.update table lastIdx run) ((p :: rest).take ((p :: rest).length - run.length))

/-- The new table, when the old buckets before `n` have been moved. -/
def moved (idx : K → ℕ) (old : ℕ → List (K × V)) (n : ℕ) : ℕ → List (K × V) :=
  (List.range n).foldl (fun table b => moveBucket idx table (old b)) fun _ => []

/-- `chm_segment_rehash`: the segment that takes the place of the old one. -/
def chmSegmentRehash (C : ChmConfig K) (segOld : Segment K V) (newNode : K × V) : Segment K V :=
  let segNew : Segment K V := allocateSegment (2 * segOld.numBuckets) segOld.loadFactor
  let idx := C.bucket segNew.numBuckets
  let table := moved idx segOld.table segOld.numBuckets
  { segNew with
    table := Function.update table (idx newNode.1) (newNode :: table (idx newNode.1))
    size := segOld.size + 1 }

def search [Zero V] (C : ChmConfig K) (s : Segments K V) (key : K) : V :=
  lookup key ((s (C.segNum key)).chain C key)

/-- `insert`; with `RO_FAIL` it looks for the key twice. -/
def insert (C : ChmConfig K) (s : Segments K V) (key : K) (val : V) : Segments K V × Bool :=
  let segNum := C.segNum key
  let seg := s segNum
  if C.roFail && contains key (seg.chain C key) then (s, false)
  else if contains key (seg.chain C key) then (s, false)
  else
    let sizepp := seg.size + 1
    if sizepp ≥ seg.sizeLimit then
      (Function.update s segNum (chmSegmentRehash C seg (key, val)), true)
    else
      (Function.update s segNum { seg.setTable (C.bucket seg.numBuckets key)
        (seg.chain C key ++ [(key, val)]) with size := sizepp }, true)

def remove [Zero V] (C : ChmConfig K) (s : Segments K V) (key : K) : Segments K V × V :=
  let segNum := C.segNum key
  let seg := s segNum
  if C.roFail && !contains key (seg.chain C key) then (s, 0)
  else if contains key (seg.chain C key) then
    (Function.update s segNum { seg.setTable (C.bucket seg.numBuckets key)
      (unlink key (seg.chain C key)) with size := seg.size - 1 }, lookup key (seg.chain C key))
  else (s, 0)

/-- The loops of `length`. -/
def length (C : ChmConfig K) (s : Segments K V) : ℕ :=
  ((List.range C.numSegments).map fun g =>
    ((List.range (s g).numBuckets).map fun i => ((s g).table i).length).sum).sum

/-- The calls; `length` returns an `int`. -/
inductive TableCall (K V : Type*) where
  | call (op : Call K V)
  | length

inductive TableAnswer (V : Type*) where
  | answer (r : Answer V)
  | length (count : BitVec 32)
  deriving DecidableEq

/-- A call, and what it returns. -/
def apply [Zero V] (C : ChmConfig K) (s : Segments K V) :
    TableCall K V → Segments K V × TableAnswer V
  | .call (.search k) => (s, .answer (.val (search C s k)))
  | .call (.insert k v) => ((insert C s k v).1, .answer (.flag (insert C s k v).2))
  | .call (.remove k) => ((remove C s k).1, .answer (.val (remove C s k).2))
  | .length => (s, .length (BitVec.ofNat 32 (length C s)))

/-- The table that the constructor makes. -/
def machine (V : Type*) [Zero V] (C : ChmConfig K) :
    Machine (TableCall K V) (TableAnswer V) (Segments K V) where
  init := construct C
  apply op s := some (apply C s op)

/-- The finite map with `length`. -/
noncomputable def finiteMap (K V : Type*) [DecidableEq K] [Zero V] :
    Machine (TableCall K V) (TableAnswer V) (K → Option V) where
  init := fun _ => none
  apply
    | .call op, m => some (((mapObject K V).apply op m).1, .answer ((mapObject K V).apply op m).2)
    | .length, m => some (m, .length (BitVec.ofNat 32 {k | m k ≠ none}.ncard))

/-! ### When a rehash keeps the lists -/

/-- No node of an old bucket goes where the last run of a later one goes. -/
def Separates (C : ChmConfig K) (seg : Segment K V) : Prop :=
  ∀ b₁ b₂, b₁ < b₂ → b₂ < seg.numBuckets → ∀ p ∈ seg.table b₁, ∀ q ∈ (seg.table b₂).getLast?,
    C.bucket (2 * seg.numBuckets) p.1 ≠ C.bucket (2 * seg.numBuckets) q.1

/-- If the call fills its segment up, the buckets of the segment separate. -/
def Keeps (C : ChmConfig K) (s : Segments K V) (op : TableCall K V) : Prop :=
  ∀ k v, op = .call (.insert k v) → contains k ((s (C.segNum k)).chain C k) = false →
    (s (C.segNum k)).sizeLimit ≤ (s (C.segNum k)).size + 1 → Separates C (s (C.segNum k))

/-- The values that are inserted are not 0. -/
def NonZero [Zero V] (op : TableCall K V) : Prop := ∀ k v, op = .call (.insert k v) → v ≠ 0

/-! ### The walks -/

section walks

variable {k : K} {v : V} {p : K × V} {l : List (K × V)}

theorem contains_iff : contains k l = true ↔ k ∈ l.map Prod.fst := by
  induction l with
  | nil => simp [contains]
  | cons p l ih =>
    by_cases h : p.1 = k
    · simp [contains, h]
    · have h' : k ≠ p.1 := Ne.symm h
      simp [contains, h, h', ih]

theorem lookup_of_mem [Zero V] (hn : (l.map Prod.fst).Nodup) (h : (k, v) ∈ l) : lookup k l = v := by
  induction l with
  | nil => cases h
  | cons p l ih =>
    obtain ⟨hp, hn⟩ := List.nodup_cons.mp hn
    rcases List.mem_cons.mp h with rfl | h
    · simp [lookup]
    · have hne : p.1 ≠ k := by
        rintro rfl
        exact hp (List.mem_map.mpr ⟨_, h, rfl⟩)
      simp [lookup, hne, ih hn h]

theorem lookup_of_not_mem [Zero V] (h : k ∉ l.map Prod.fst) : lookup k l = (0 : V) := by
  induction l with
  | nil => rfl
  | cons p l ih =>
    rw [List.map_cons, List.mem_cons, not_or] at h
    simp [lookup, Ne.symm h.1, ih h.2]

theorem unlink_sublist (k : K) (l : List (K × V)) : (unlink k l).Sublist l := by
  induction l with
  | nil => exact .slnil
  | cons p l ih =>
    unfold unlink
    split
    · exact List.sublist_cons_self p l
    · exact ih.cons_cons p

theorem mem_unlink (hn : (l.map Prod.fst).Nodup) : p ∈ unlink k l ↔ p ∈ l ∧ p.1 ≠ k := by
  induction l with
  | nil => simp [unlink]
  | cons q l ih =>
    obtain ⟨hq, hn⟩ := List.nodup_cons.mp hn
    by_cases h : q.1 = k
    · have hk : ∀ p ∈ l, p.1 ≠ k := by
        rintro p hp rfl
        exact hq (List.mem_map.mpr ⟨p, hp, h.symm⟩)
      simp only [unlink, h, if_true, List.mem_cons]
      constructor
      · exact fun hp => ⟨Or.inr hp, hk p hp⟩
      · rintro ⟨rfl | hp, hne⟩
        · exact absurd h hne
        · exact hp
    · simp only [unlink, h, if_false, List.mem_cons, ih hn]
      constructor
      · rintro (rfl | ⟨hp, hne⟩)
        · exact ⟨Or.inl rfl, h⟩
        · exact ⟨Or.inr hp, hne⟩
      · rintro ⟨rfl | hp, hne⟩
        · exact Or.inl rfl
        · exact Or.inr ⟨hp, hne⟩

end walks

/-! ### One old bucket -/

section bucket

variable {idx : K → ℕ} {t : ℕ → List (K × V)} {c l : List (K × V)} {p : K × V} {i : ℕ}

/-- The loop ends with an end of the list whose nodes have one index. -/
theorem lastRun_spec (idx : K → ℕ) (mid : List (K × V)) (lastIdx : ℕ) (last : List (K × V))
    (hne : mid ≠ []) (hmid : ∀ p ∈ mid, idx p.1 = lastIdx) :
    ∃ pre, mid ++ last = pre ++ (lastRun idx lastIdx (mid ++ last) last).2 ∧
      (lastRun idx lastIdx (mid ++ last) last).2 ≠ [] ∧
      ∀ p ∈ (lastRun idx lastIdx (mid ++ last) last).2,
        idx p.1 = (lastRun idx lastIdx (mid ++ last) last).1 := by
  induction last generalizing mid lastIdx with
  | nil => exact ⟨[], by simp [lastRun], by simpa [lastRun] using hne, by simpa [lastRun] using hmid⟩
  | cons q rest ih =>
    by_cases hq : idx q.1 = lastIdx
    · have h := ih (mid ++ [q]) lastIdx (by simp) fun p hp => by
        rcases List.mem_append.mp hp with hp | hp
        · exact hmid p hp
        · rw [List.mem_singleton.mp hp, hq]
      rw [List.append_assoc, List.singleton_append] at h
      rw [lastRun, if_neg (not_not.mpr hq)]
      exact h
    · obtain ⟨pre, h1, h2, h3⟩ := ih [q] (idx q.1) (by simp) (by simp)
      rw [List.singleton_append] at h1 h2 h3
      rw [lastRun, if_pos hq]
      exact ⟨mid ++ pre, by rw [List.append_assoc, ← h1], h2, h3⟩

theorem copies_cons (idx : K → ℕ) (t : ℕ → List (K × V)) (p : K × V) (l : List (K × V)) :
    copies idx t (p :: l) = copies idx (Function.update t (idx p.1) (p :: t (idx p.1))) l := rfl

theorem mem_copies : p ∈ copies idx t l i ↔ p ∈ t i ∨ (p ∈ l ∧ idx p.1 = i) := by
  induction l generalizing t with
  | nil => simp [copies]
  | cons q l ih =>
    rw [copies_cons, ih]
    by_cases hi : i = idx q.1
    · subst hi
      simp only [Function.update_self, List.mem_cons]
      constructor
      · rintro ((rfl | h) | ⟨h1, h2⟩)
        · exact Or.inr ⟨Or.inl rfl, rfl⟩
        · exact Or.inl h
        · exact Or.inr ⟨Or.inr h1, h2⟩
      · rintro (h | ⟨rfl | h1, h2⟩)
        · exact Or.inl (Or.inr h)
        · exact Or.inl (Or.inl rfl)
        · exact Or.inr ⟨h1, h2⟩
    · rw [Function.update_of_ne hi, List.mem_cons]
      constructor
      · exact Or.imp_right fun h => ⟨Or.inr h.1, h.2⟩
      · rintro (h | ⟨rfl | h1, h2⟩)
        · exact Or.inl h
        · exact absurd h2.symm hi
        · exact Or.inr ⟨h1, h2⟩

theorem nodup_copies (ht : ∀ i, ((t i).map Prod.fst).Nodup) (hl : (l.map Prod.fst).Nodup)
    (hd : ∀ i, ∀ p ∈ t i, ∀ q ∈ l, p.1 ≠ q.1) : ((copies idx t l i).map Prod.fst).Nodup := by
  induction l generalizing t with
  | nil => exact ht i
  | cons q l ih =>
    obtain ⟨hq, hl⟩ := List.nodup_cons.mp hl
    rw [copies_cons]
    refine ih (fun j => ?_) hl fun j p hp r hr => ?_
    · by_cases hj : j = idx q.1
      · subst hj
        rw [Function.update_self, List.map_cons, List.nodup_cons]
        refine ⟨fun h => ?_, ht _⟩
        obtain ⟨p, hp, he⟩ := List.mem_map.mp h
        exact hd _ p hp q (List.mem_cons_self ..) he
      · rw [Function.update_of_ne hj]
        exact ht j
    · by_cases hj : j = idx q.1
      · subst hj
        rw [Function.update_self] at hp
        rcases List.mem_cons.mp hp with rfl | hp
        · exact fun he => hq (List.mem_map.mpr ⟨r, hr, he.symm⟩)
        · exact hd _ p hp r (List.mem_cons_of_mem _ hr)
      · rw [Function.update_of_ne hj] at hp
        exact hd _ p hp r (List.mem_cons_of_mem _ hr)

/-- A list that is not empty is a rest, of which there are copies, and a run. -/
theorem moveBucket_eq (idx : K → ℕ) (t : ℕ → List (K × V)) (hc : c ≠ []) :
    ∃ pre run lastIdx, c = pre ++ run ∧
      (∀ p ∈ run, idx p.1 = lastIdx) ∧ (∀ q ∈ c.getLast?, idx q.1 = lastIdx) ∧
      moveBucket idx t c = copies idx (Function.update t lastIdx run) pre := by
  match c with
  | [p] => exact ⟨[], [p], idx p.1, rfl, by simp, by simp, rfl⟩
  | p :: q :: rest =>
    obtain ⟨pre, h1, h2, h3⟩ := lastRun_spec idx [p] (idx p.1) (q :: rest) (by simp) (by simp)
    rw [List.singleton_append] at h1 h2 h3
    have hmove : moveBucket idx t (p :: q :: rest) = copies idx
        (Function.update t (lastRun idx (idx p.1) (p :: q :: rest) (q :: rest)).1
          (lastRun idx (idx p.1) (p :: q :: rest) (q :: rest)).2)
        ((p :: q :: rest).take ((p :: q :: rest).length -
          (lastRun idx (idx p.1) (p :: q :: rest) (q :: rest)).2.length)) := rfl
    rw [hmove]
    generalize lastRun idx (idx p.1) (p :: q :: rest) (q :: rest) = r at h1 h2 h3 ⊢
    refine ⟨pre, r.2, r.1, h1, h3, fun x hx => ?_, ?_⟩
    · rw [h1, List.getLast?_append_of_ne_nil _ h2] at hx
      exact h3 x (List.mem_of_getLast? hx)
    · rw [h1, List.length_append, Nat.add_sub_cancel, List.take_left]

/-- Where the new bucket of the run is empty, the nodes of the list come to what
is there. -/
theorem mem_moveBucket (h : ∀ q ∈ c.getLast?, t (idx q.1) = []) :
    p ∈ moveBucket idx t c i ↔ p ∈ t i ∨ (p ∈ c ∧ idx p.1 = i) := by
  by_cases hc : c = []
  · subst hc
    simp [moveBucket]
  obtain ⟨pre, run, lastIdx, rfl, hrun, hlast, he⟩ := moveBucket_eq idx t hc
  have hempty : t lastIdx = [] := by
    have hq := List.getLast_mem_getLast? hc
    rw [← hlast _ hq]
    exact h _ hq
  rw [he, mem_copies, List.mem_append]
  by_cases hi : i = lastIdx
  · subst hi
    rw [Function.update_self, hempty]
    constructor
    · rintro (h1 | ⟨h1, h2⟩)
      · exact Or.inr ⟨Or.inr h1, hrun p h1⟩
      · exact Or.inr ⟨Or.inl h1, h2⟩
    · rintro (h1 | ⟨h1 | h1, h2⟩)
      · cases h1
      · exact Or.inr ⟨h1, h2⟩
      · exact Or.inl h1
  · rw [Function.update_of_ne hi]
    refine or_congr_right ⟨fun h1 => ⟨Or.inl h1.1, h1.2⟩, ?_⟩
    rintro ⟨h1 | h1, h2⟩
    · exact ⟨h1, h2⟩
    · exact absurd (h2.symm.trans (hrun p h1)) hi

/-- Nothing else comes to a bucket, and what was in the bucket of the run goes. -/
theorem mem_of_moveBucket (h : p ∈ moveBucket idx t c i) :
    (p ∈ c ∧ idx p.1 = i) ∨ (p ∈ t i ∧ ∀ q ∈ c.getLast?, idx q.1 ≠ i) := by
  by_cases hc : c = []
  · subst hc
    exact Or.inr ⟨h, by simp⟩
  obtain ⟨pre, run, lastIdx, rfl, hrun, hlast, he⟩ := moveBucket_eq idx t hc
  rw [he, mem_copies] at h
  rcases h with h | ⟨h1, h2⟩
  · by_cases hi : i = lastIdx
    · subst hi
      rw [Function.update_self] at h
      exact Or.inl ⟨List.mem_append_right _ h, hrun p h⟩
    · rw [Function.update_of_ne hi] at h
      exact Or.inr ⟨h, fun q hq he => hi (he.symm.trans (hlast q hq))⟩
  · exact Or.inl ⟨List.mem_append_left _ h1, h2⟩

theorem nodup_moveBucket (ht : ∀ i, ((t i).map Prod.fst).Nodup) (hc : (c.map Prod.fst).Nodup)
    (hd : ∀ i, ∀ p ∈ t i, ∀ q ∈ c, p.1 ≠ q.1) : ((moveBucket idx t c i).map Prod.fst).Nodup := by
  by_cases hne : c = []
  · subst hne
    exact ht i
  obtain ⟨pre, run, lastIdx, rfl, -, -, he⟩ := moveBucket_eq idx t hne
  rw [List.map_append, List.nodup_append'] at hc
  obtain ⟨hpre, hrun, hdis⟩ := hc
  rw [he]
  refine nodup_copies (fun j => ?_) hpre fun j p hp q hq => ?_
  · by_cases hj : j = lastIdx
    · rw [hj, Function.update_self]
      exact hrun
    · rw [Function.update_of_ne hj]
      exact ht j
  · by_cases hj : j = lastIdx
    · rw [hj, Function.update_self] at hp
      intro he
      exact List.disjoint_left.mp hdis (List.mem_map.mpr ⟨q, hq, he.symm⟩)
        (List.mem_map.mpr ⟨p, hp, rfl⟩)
    · rw [Function.update_of_ne hj] at hp
      exact hd j p hp q (List.mem_append_left _ hq)

end bucket

/-! ### All old buckets -/

section moved

variable {idx : K → ℕ} {old : ℕ → List (K × V)} {p : K × V} {i n : ℕ}

theorem moved_succ (idx : K → ℕ) (old : ℕ → List (K × V)) (n : ℕ) :
    moved idx old (n + 1) = moveBucket idx (moved idx old n) (old n) := by
  rw [moved, List.range_succ, List.foldl_append]
  rfl

/-- Whatever is in a new bucket comes from an old one and belongs there. -/
theorem mem_of_moved (h : p ∈ moved idx old n i) : (∃ b < n, p ∈ old b) ∧ idx p.1 = i := by
  induction n with
  | zero => cases h
  | succ n ih =>
    rw [moved_succ] at h
    rcases mem_of_moveBucket h with ⟨h1, h2⟩ | ⟨h1, -⟩
    · exact ⟨⟨n, Nat.lt_succ_self n, h1⟩, h2⟩
    · obtain ⟨⟨b, hb, hp⟩, h2⟩ := ih h1
      exact ⟨⟨b, Nat.lt_succ_of_lt hb, hp⟩, h2⟩

/-- **If the old buckets separate, every node is in its new bucket.** -/
theorem mem_moved (hsep : ∀ b₁ b₂, b₁ < b₂ → b₂ < n → ∀ p ∈ old b₁, ∀ q ∈ (old b₂).getLast?,
    idx p.1 ≠ idx q.1) : p ∈ moved idx old n i ↔ (∃ b < n, p ∈ old b) ∧ idx p.1 = i := by
  refine ⟨mem_of_moved, ?_⟩
  induction n with
  | zero =>
    rintro ⟨⟨b, hb, -⟩, -⟩
    exact absurd hb (Nat.not_lt_zero b)
  | succ n ih =>
    rintro ⟨⟨b, hb, hp⟩, hi⟩
    have hempty : ∀ q ∈ (old n).getLast?, moved idx old n (idx q.1) = [] := by
      intro q hq
      refine List.eq_nil_iff_forall_not_mem.mpr fun x hx => ?_
      obtain ⟨⟨b', hb', hx'⟩, he⟩ := mem_of_moved hx
      exact hsep b' n hb' (Nat.lt_succ_self n) x hx' q hq he
    rw [moved_succ, mem_moveBucket hempty]
    rcases Nat.lt_succ_iff_lt_or_eq.mp hb with hb | rfl
    · exact Or.inl (ih (fun b₁ b₂ h1 h2 => hsep b₁ b₂ h1 (Nat.lt_succ_of_lt h2)) ⟨⟨b, hb, hp⟩, hi⟩)
    · exact Or.inr ⟨hp, hi⟩

theorem nodup_moved (hn : ∀ b, ((old b).map Prod.fst).Nodup)
    (hkey : ∀ b b', ∀ p ∈ old b, ∀ q ∈ old b', p.1 = q.1 → b = b') :
    ((moved idx old n i).map Prod.fst).Nodup := by
  induction n generalizing i with
  | zero => exact List.nodup_nil
  | succ n ih =>
    rw [moved_succ]
    refine nodup_moveBucket (fun j => ih) (hn n) fun j p hp q hq he => ?_
    obtain ⟨⟨b, hb, hp'⟩, -⟩ := mem_of_moved hp
    exact absurd (hkey b n p hp' q hq he) (Nat.ne_of_lt hb)

end moved

/-! ### One segment -/

/-- Every node is in the bucket of its key, and no bucket has a key twice. -/
structure Proper (C : ChmConfig K) (g : ℕ) (seg : Segment K V) : Prop where
  pos : 0 < seg.numBuckets
  place : ∀ i, ∀ p ∈ seg.table i, C.segNum p.1 = g ∧ C.bucket seg.numBuckets p.1 = i
  nodup : ∀ i, ((seg.table i).map Prod.fst).Nodup

section segment

variable {C : ChmConfig K} {g i size : ℕ} {seg : Segment K V} {k : K} {v : V} {l : List (K × V)}

theorem bucket_lt {n : ℕ} (h : 0 < n) (k : K) : C.bucket n k < n :=
  Nat.lt_of_le_of_lt Nat.and_le_right (Nat.sub_one_lt_of_lt h)

theorem Proper.allocate (C : ChmConfig K) (g : ℕ) {capacity : ℕ} (h : 0 < capacity)
    (loadFactor : ℕ) : Proper C g (allocateSegment capacity loadFactor : Segment K V) :=
  ⟨h, nofun, fun _ => List.nodup_nil⟩

/-- A key has one bucket. -/
theorem Proper.key (h : Proper C g seg) : ∀ b b', ∀ p ∈ seg.table b, ∀ q ∈ seg.table b',
    p.1 = q.1 → b = b' := by
  intro b b' p hp q hq he
  rw [← (h.place b p hp).2, ← (h.place b' q hq).2, he]

/-- Another list with keys of the bucket takes the place of one. -/
theorem Proper.setTable (h : Proper C g seg) (hl : (l.map Prod.fst).Nodup)
    (hp : ∀ p ∈ l, C.segNum p.1 = g ∧ C.bucket seg.numBuckets p.1 = i) :
    Proper C g { seg.setTable i l with size := size } := by
  refine ⟨h.pos, fun j p hm => ?_, fun j => ?_⟩
  · by_cases hj : j = i
    · subst hj
      exact hp p (by simpa [Segment.setTable] using hm)
    · exact h.place j p (by simpa [Segment.setTable, hj] using hm)
  · by_cases hj : j = i
    · subst hj
      simpa [Segment.setTable] using hl
    · simpa [Segment.setTable, hj] using h.nodup j

theorem chain_setTable (j : K) : Segment.chain C { seg.setTable i l with size := size } j =
    if C.bucket seg.numBuckets j = i then l else seg.chain C j := by
  unfold Segment.chain Segment.setTable
  by_cases hj : C.bucket seg.numBuckets j = i
  · rw [if_pos hj]
    simp [hj]
  · rw [if_neg hj]
    simp [hj]

/-- **The segment that a rehash leaves**: if the buckets separate, it has the
nodes of the old one, and the new one. -/
theorem mem_chain_rehash (h : Proper C g seg) (hsep : Separates C seg) (j : K) (w : V) :
    (j, w) ∈ (chmSegmentRehash C seg (k, v)).chain C j ↔
      (j, w) ∈ seg.chain C j ∨ (j = k ∧ w = v) := by
  have hmoved : (j, w) ∈ moved (C.bucket (2 * seg.numBuckets)) seg.table seg.numBuckets
      (C.bucket (2 * seg.numBuckets) j) ↔ (j, w) ∈ seg.chain C j := by
    rw [mem_moved hsep]
    constructor
    · rintro ⟨⟨b, -, hb⟩, -⟩
      have := (h.place b _ hb).2
      rwa [Segment.chain, this]
    · exact fun hm => ⟨⟨_, bucket_lt h.pos j, hm⟩, rfl⟩
  rw [← hmoved]
  unfold Segment.chain chmSegmentRehash
  simp only [allocateSegment]
  by_cases hj : C.bucket (2 * seg.numBuckets) j = C.bucket (2 * seg.numBuckets) k
  · rw [hj, Function.update_self, List.mem_cons, Prod.mk.injEq, or_comm]
  · rw [Function.update_of_ne hj]
    refine ⟨Or.inl, fun hm => hm.resolve_right ?_⟩
    rintro ⟨rfl, -⟩
    exact hj rfl

theorem Proper.rehash (h : Proper C g seg) (hk : C.segNum k = g)
    (habs : ∀ i, ∀ p ∈ seg.table i, p.1 ≠ k) : Proper C g (chmSegmentRehash C seg (k, v)) := by
  have hmem : ∀ i, ∀ p ∈ moved (C.bucket (2 * seg.numBuckets)) seg.table seg.numBuckets i,
      (C.segNum p.1 = g ∧ C.bucket (2 * seg.numBuckets) p.1 = i) ∧ p.1 ≠ k := by
    intro i p hp
    obtain ⟨⟨b, -, hb⟩, hi⟩ := mem_of_moved hp
    exact ⟨⟨(h.place b p hb).1, hi⟩, habs b p hb⟩
  have hnd : ∀ i, ((moved (C.bucket (2 * seg.numBuckets)) seg.table seg.numBuckets i).map
      Prod.fst).Nodup := fun i => nodup_moved h.nodup h.key
  refine ⟨Nat.mul_pos Nat.two_pos h.pos, fun i p hp => ?_, fun i => ?_⟩
  · simp only [chmSegmentRehash, allocateSegment] at hp ⊢
    by_cases hi : i = C.bucket (2 * seg.numBuckets) k
    · subst hi
      rw [Function.update_self] at hp
      rcases List.mem_cons.mp hp with rfl | hp
      · exact ⟨hk, rfl⟩
      · exact (hmem _ p hp).1
    · rw [Function.update_of_ne hi] at hp
      exact (hmem i p hp).1
  · simp only [chmSegmentRehash, allocateSegment]
    by_cases hi : i = C.bucket (2 * seg.numBuckets) k
    · subst hi
      rw [Function.update_self, List.map_cons, List.nodup_cons]
      refine ⟨fun hm => ?_, hnd _⟩
      obtain ⟨p, hp, he⟩ := List.mem_map.mp hm
      exact (hmem _ p hp).2 he
    · rw [Function.update_of_ne hi]
      exact hnd i

end segment

/-! ### The table and the map -/

/-- Every segment is proper, and together they hold the map. -/
structure Sim [Zero V] (C : ChmConfig K) (s : Segments K V) (m : K → Option V) : Prop where
  proper : ∀ g, Proper C g (s g)
  holds : ∀ k v, m k = some v ↔ (k, v) ∈ (s (C.segNum k)).chain C k
  nonzero : ∀ k v, m k = some v → v ≠ 0

section sim

variable [Zero V] {C : ChmConfig K} {s : Segments K V} {m : K → Option V} {k : K} {v : V}
  {op : TableCall K V}

theorem Sim.init (hcap : 0 < C.capacitySeg) : Sim C (construct C : Segments K V) fun _ => none where
  proper g := Proper.allocate C g hcap C.loadFactor
  holds _ _ := ⟨nofun, nofun⟩
  nonzero _ _ := nofun

namespace Sim

variable (h : Sim C s m)

include h

theorem nodup (k : K) : (((s (C.segNum k)).chain C k).map Prod.fst).Nodup :=
  (h.proper (C.segNum k)).nodup _

theorem mem_keys (k : K) : k ∈ ((s (C.segNum k)).chain C k).map Prod.fst ↔ m k ≠ none := by
  rw [Option.ne_none_iff_exists']
  constructor
  · intro hk
    obtain ⟨⟨j, v⟩, hp, rfl⟩ := List.mem_map.mp hk
    exact ⟨v, (h.holds j v).mpr hp⟩
  · rintro ⟨v, hv⟩
    exact List.mem_map.mpr ⟨(k, v), (h.holds k v).mp hv, rfl⟩

theorem contains_false (hk : m k = none) : contains k ((s (C.segNum k)).chain C k) = false := by
  rw [← Bool.not_eq_true, contains_iff, h.mem_keys]
  exact not_not.mpr hk

theorem contains_true (hk : m k = some v) : contains k ((s (C.segNum k)).chain C k) = true := by
  rw [contains_iff, h.mem_keys, hk]
  nofun

theorem lookup_eq (k : K) : lookup k ((s (C.segNum k)).chain C k) = (m k).getD 0 := by
  rcases hk : m k with _ | v
  · refine lookup_of_not_mem fun hm => ?_
    exact (h.mem_keys k).mp hm hk
  · exact lookup_of_mem (h.nodup k) ((h.holds k v).mp hk)

/-- A key that is absent is in no bucket of its segment. -/
theorem absent (hk : m k = none) : ∀ i, ∀ p ∈ (s (C.segNum k)).table i, p.1 ≠ k := by
  rintro i p hp rfl
  have hi := ((h.proper _).place i p hp).2
  refine (h.mem_keys p.1).mp (List.mem_map.mpr ⟨p, ?_, rfl⟩) hk
  rw [Segment.chain, hi]
  exact hp

/-- The segment of a key changes, and only what the map says of the key. -/
theorem update {seg : Segment K V} {x : Option V} (hseg : Proper C (C.segNum k) seg)
    (hself : ∀ v, x = some v ↔ (k, v) ∈ seg.chain C k)
    (hother : ∀ j v, j ≠ k → C.segNum j = C.segNum k →
      ((j, v) ∈ seg.chain C j ↔ (j, v) ∈ (s (C.segNum k)).chain C j))
    (hx : ∀ v, x = some v → v ≠ 0) :
    Sim C (Function.update s (C.segNum k) seg) (Function.update m k x) := by
  refine ⟨fun g => ?_, fun j v => ?_, fun j v hv => ?_⟩
  · by_cases hg : g = C.segNum k
    · subst hg
      rw [Function.update_self]
      exact hseg
    · rw [Function.update_of_ne hg]
      exact h.proper g
  · by_cases hj : j = k
    · subst hj
      rw [Function.update_self, Function.update_self]
      exact hself v
    · rw [Function.update_of_ne hj, h.holds]
      by_cases hg : C.segNum j = C.segNum k
      · rw [hg, Function.update_self]
        exact (hother j v hj hg).symm
      · rw [Function.update_of_ne hg]
  · by_cases hj : j = k
    · subst hj
      rw [Function.update_self] at hv
      exact hx v hv
    · rw [Function.update_of_ne hj] at hv
      exact h.nonzero j v hv

/-- An insert that does not fill its segment up. -/
theorem append (hk : m k = none) (hv : v ≠ 0) (size : ℕ) :
    Sim C (Function.update s (C.segNum k) { (s (C.segNum k)).setTable
        (C.bucket (s (C.segNum k)).numBuckets k) ((s (C.segNum k)).chain C k ++ [(k, v)]) with
        size := size })
      (Function.update m k (some v)) := by
  have hk' : k ∉ ((s (C.segNum k)).chain C k).map Prod.fst := fun hm => (h.mem_keys k).mp hm hk
  refine h.update ((h.proper _).setTable ?_ fun p hp => ?_) (fun w => ?_) (fun j w hj hg => ?_) ?_
  · rw [List.map_append, List.nodup_append']
    refine ⟨h.nodup k, List.nodup_singleton k, ?_⟩
    simpa using hk'
  · rcases List.mem_append.mp hp with hp | hp
    · exact (h.proper _).place _ p hp
    · rw [List.mem_singleton.mp hp]
      exact ⟨rfl, rfl⟩
  · rw [chain_setTable, if_pos rfl, List.mem_append, List.mem_singleton, Prod.mk.injEq,
      Option.some.injEq, eq_comm]
    refine ⟨fun hw => Or.inr ⟨rfl, hw⟩, fun hm => (hm.resolve_left fun hm => ?_).2⟩
    exact hk' (List.mem_map.mpr ⟨_, hm, rfl⟩)
  · rw [chain_setTable]
    split
    · rename_i hb
      rw [List.mem_append, List.mem_singleton, Prod.mk.injEq, Segment.chain, Segment.chain, hb]
      exact or_iff_left fun he => hj he.1
    · rfl
  · rintro w ⟨⟩
    exact hv

/-- An insert that does. -/
theorem rehash (hk : m k = none) (hv : v ≠ 0) (hsep : Separates C (s (C.segNum k))) :
    Sim C (Function.update s (C.segNum k) (chmSegmentRehash C (s (C.segNum k)) (k, v)))
      (Function.update m k (some v)) := by
  refine h.update ((h.proper _).rehash rfl (h.absent hk)) (fun w => ?_) (fun j w hj hg => ?_) ?_
  · rw [mem_chain_rehash (h.proper _) hsep, ← h.holds, hk, Option.some.injEq, eq_comm]
    simp
  · rw [mem_chain_rehash (h.proper _) hsep]
    exact or_iff_left fun he => hj he.1
  · rintro w ⟨⟩
    exact hv

/-- A remove of a key that is there. -/
theorem unlink (size : ℕ) :
    Sim C (Function.update s (C.segNum k) { (s (C.segNum k)).setTable
        (C.bucket (s (C.segNum k)).numBuckets k) (unlink k ((s (C.segNum k)).chain C k)) with
        size := size })
      (Function.update m k none) := by
  refine h.update ((h.proper _).setTable ?_ fun p hp => ?_) (fun w => ?_) (fun j w hj hg => ?_) nofun
  · exact ((unlink_sublist k _).map _).nodup (h.nodup k)
  · exact (h.proper _).place _ p ((unlink_sublist k _).subset hp)
  · rw [chain_setTable, if_pos rfl, mem_unlink (h.nodup k)]
    exact ⟨nofun, fun hm => absurd rfl hm.2⟩
  · rw [chain_setTable]
    split
    · rename_i hb
      rw [mem_unlink (h.nodup k), Segment.chain, Segment.chain, hb]
      exact and_iff_left hj
    · rfl

/-- `length` counts the keys. -/
theorem length_eq : length C s = {k | m k ≠ none}.ncard := by
  let keys (g : ℕ) : List K :=
    (List.range (s g).numBuckets).flatMap fun i => ((s g).table i).map Prod.fst
  have hmem : ∀ k g, k ∈ keys g ↔ g = C.segNum k ∧ m k ≠ none := by
    intro k g
    simp only [keys, List.mem_flatMap, List.mem_range]
    constructor
    · rintro ⟨i, hi, hk⟩
      obtain ⟨p, hp, rfl⟩ := List.mem_map.mp hk
      obtain ⟨rfl, rfl⟩ := (h.proper g).place i p hp
      exact ⟨rfl, (h.mem_keys p.1).mp (List.mem_map.mpr ⟨p, hp, rfl⟩)⟩
    · rintro ⟨rfl, hk⟩
      exact ⟨_, bucket_lt (h.proper _).pos k, (h.mem_keys k).mpr hk⟩
  have hkeys : ∀ g, (keys g).Nodup := by
    intro g
    refine List.nodup_flatMap.mpr ⟨fun i _ => (h.proper g).nodup i, ?_⟩
    refine List.nodup_range.imp fun {i j} hij => List.disjoint_left.mpr fun k hi hj => hij ?_
    obtain ⟨p, hp, rfl⟩ := List.mem_map.mp hi
    obtain ⟨q, hq, he⟩ := List.mem_map.mp hj
    exact (h.proper g).key i j p hp q hq he.symm
  have hall : ((List.range C.numSegments).flatMap keys).Nodup := by
    refine List.nodup_flatMap.mpr ⟨fun g _ => hkeys g, ?_⟩
    refine List.nodup_range.imp fun {i j} hij => List.disjoint_left.mpr fun k hi hj => hij ?_
    rw [((hmem k i).mp hi).1, ((hmem k j).mp hj).1]
  have hset : {k | m k ≠ none} = (((List.range C.numSegments).flatMap keys).toFinset : Set K) := by
    ext k
    simp only [Set.mem_ofPred_eq, Finset.mem_coe, List.mem_toFinset, List.mem_flatMap, List.mem_range, hmem]
    exact ⟨fun hk => ⟨_, C.segNum_lt k, rfl, hk⟩, fun ⟨_, _, _, hk⟩ => hk⟩
  rw [hset, Set.ncard_coe_finset, List.toFinset_card_of_nodup hall, List.length_flatMap]
  simp [keys, HashtableJavaSeq.length, List.length_flatMap]

end Sim

theorem insert_present (v : V) (hc : contains k ((s (C.segNum k)).chain C k) = true) :
    insert C s k v = (s, false) := by
  simp [insert, hc]

theorem insert_full (v : V) (hc : contains k ((s (C.segNum k)).chain C k) = false)
    (hl : (s (C.segNum k)).sizeLimit ≤ (s (C.segNum k)).size + 1) : insert C s k v =
      (Function.update s (C.segNum k) (chmSegmentRehash C (s (C.segNum k)) (k, v)), true) := by
  simp [insert, hc, hl]

theorem insert_fits (v : V) (hc : contains k ((s (C.segNum k)).chain C k) = false)
    (hl : ¬ (s (C.segNum k)).sizeLimit ≤ (s (C.segNum k)).size + 1) : insert C s k v =
      (Function.update s (C.segNum k) { (s (C.segNum k)).setTable
        (C.bucket (s (C.segNum k)).numBuckets k) ((s (C.segNum k)).chain C k ++ [(k, v)]) with
        size := (s (C.segNum k)).size + 1 }, true) := by
  simp [insert, hc, hl]

/-- **A call that keeps the lists does what the finite map does.** -/
theorem Sim.step (h : Sim C s m) (hop : NonZero op) (hkeeps : Keeps C s op) :
    ∃ m', (finiteMap K V).apply op m = some (m', (apply C s op).2) ∧ Sim C (apply C s op).1 m' := by
  rcases op with (k | ⟨k, v⟩ | k) | _
  · refine ⟨m, ?_, h⟩
    simp [finiteMap, apply_search, apply, search, h.lookup_eq k]
  · have hv : v ≠ 0 := hop k v rfl
    rcases hk : m k with _ | w
    · have hc := h.contains_false hk
      refine ⟨Function.update m k (some v), ?_⟩
      simp only [finiteMap, apply_insert_none hk, apply]
      by_cases hl : (s (C.segNum k)).sizeLimit ≤ (s (C.segNum k)).size + 1
      · rw [insert_full v hc hl]
        exact ⟨rfl, h.rehash hk hv (hkeeps k v rfl hc hl)⟩
      · rw [insert_fits v hc hl]
        exact ⟨rfl, h.append hk hv _⟩
    · refine ⟨m, ?_⟩
      simp only [finiteMap, apply_insert_some hk, apply]
      rw [insert_present v (h.contains_true hk)]
      exact ⟨rfl, h⟩
  · rcases hk : m k with _ | w
    · refine ⟨m, ?_, ?_⟩
      · simp [finiteMap, apply_remove_none hk, apply, remove, h.contains_false hk]
      · simpa [apply, remove, h.contains_false hk] using h
    · refine ⟨Function.update m k none, ?_, ?_⟩
      · simp [finiteMap, apply_remove_some hk, apply, remove, h.contains_true hk, h.lookup_eq k, hk]
      · simpa [apply, remove, h.contains_true hk] using h.unlink _
  · exact ⟨m, by simp [finiteMap, apply, h.length_eq], h⟩

end sim

/-! ### Sequences of calls -/

section calls

variable [Zero V] {C : ChmConfig K} {s : Segments K V} {m : K → Option V} {ops : List (TableCall K V)}
  {op : TableCall K V}

/-- The table after the calls. -/
def after (C : ChmConfig K) (ops : List (TableCall K V)) (s : Segments K V) : Segments K V :=
  ops.foldl (fun s op => (apply C s op).1) s

end calls

end HashtableJavaSeq

end Ascylib
