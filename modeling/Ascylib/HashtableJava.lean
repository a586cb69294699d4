/-
# The hash table of segments

`src/algorithms/hashtable_java.h`, with `conc_hashmap_segment.h` and
`ll_simple.h`: an array of segments, each with a lock and a table of unordered
lists. `search`, and with `RO_FAIL` the first part of an update, walk a list
without the lock. An update takes the lock of the segment that is installed, and
an insert that fills the segment up puts a new one with twice the buckets in its
place (`chm_segment_rehash`): it takes over the end of each list and copies the
rest. The lock of the old segment is never given back.

One local state for each access to shared memory, in any build of the locks
(`TryLockOps`). Counts are unbounded here.

Key definitions: `ChmConfig`, `Chm`, `Pc`, `step`, `program`.
-/
import Ascylib.ChmAddress
import Ascylib.LockIf
import Ascylib.Memory
import Ascylib.Search

set_option linter.unusedSectionVars false
set_option linter.constructorNameAsVariable false

namespace Ascylib

open Concur

/-! ### Data -/

/-- `ll_simple.h`, with a `next` that bears no mark. -/
structure ChmNode (T K V : Type*) where
  key : K
  val : V
  next : Ptr T

/-- The address of a segment: of the constructor (`none`), or allocated by a
thread. -/
abbrev SegPtr (T : Type*) := Ptr (Option T)

/-- `conc_hashmap_segment.h`; `hash` is `num_buckets - 1`. -/
structure ConcHashmapSegment (T Λ : Type*) where
  numBuckets : ℕ
  lock : Λ
  size : ℕ
  loadFactor : ℕ
  sizeLimit : ℕ
  table : ℕ → Ptr T

/-- `allocate_conc_hashmap_segment(capacity, load_factor)`, without the memory. -/
def newSegment {T Λ : Type*} (initLock : Λ) (capacity loadFactor : ℕ) : ConcHashmapSegment T Λ where
  numBuckets := capacity
  lock := initLock
  size := 0
  loadFactor := loadFactor
  sizeLimit := if loadFactor * capacity = 0 then 1 else loadFactor * capacity
  table := fun _ => .null

/-- What the constructor fixes, and how keys are used: `segNum` is
`key & chm->hash`, and `hash` is `hash(key, chm->hash_seed)` as a `size_t`. -/
structure ChmConfig (K : Type*) where
  numSegments : ℕ
  segNum : K → ℕ
  segNum_lt : ∀ k, segNum k < numSegments
  hash : K → ℕ
  capacitySeg : ℕ
  loadFactor : ℕ
  roFail : Bool

/-- `hash(key, chm->hash_seed) & (num_buckets - 1)`. -/
def ChmConfig.bucket {K : Type*} (C : ChmConfig K) (numBuckets : ℕ) (key : K) : ℕ :=
  C.hash key &&& (numBuckets - 1)

/-- `HashtableJavaCHM(capacity, num_segments)` for integer keys that are not
negative. -/
def ChmConfig.construct (capacity numSegments : ℕ) (h : 0 < numSegments) (roFail : Bool) :
    ChmConfig ℕ where
  numSegments := numSegments
  segNum key := Ascylib.segNum numSegments key
  segNum_lt _ := Nat.lt_of_le_of_lt Nat.and_le_right (Nat.sub_one_lt_of_lt h)
  hash key := ((Ascylib.hash key (floorLog2 numSegments).toNat).signExtend 64).toNat
  capacitySeg := max capacity numSegments / numSegments
  loadFactor := 1
  roFail := roFail

/-- The shared memory: nodes, segments, and `chm->segments`; `freedTables` are
the segments whose table was released. -/
structure Chm (T K V Λ : Type*) where
  memory : Memory T (ChmNode T K V)
  segs : Memory (Option T) (ConcHashmapSegment T Λ)
  segments : ℕ → SegPtr T
  freedTables : List (SegPtr T)

namespace Chm

variable {T K V Λ : Type*} [DecidableEq T]

def key (s : Chm T K V Λ) (x : Ptr T) : K := (s.memory.mem x).key
def val (s : Chm T K V Λ) (x : Ptr T) : V := (s.memory.mem x).val
def next (s : Chm T K V Λ) (x : Ptr T) : Ptr T := (s.memory.mem x).next
def seg (s : Chm T K V Λ) (g : SegPtr T) : ConcHashmapSegment T Λ := s.segs.mem g
def lock (s : Chm T K V Λ) (g : SegPtr T) : Λ := (s.seg g).lock

/-- `x->next = q`. -/
def setNext (s : Chm T K V Λ) (x q : Ptr T) : Chm T K V Λ :=
  { s with memory := s.memory.modify x fun n => { n with next := q } }

/-- The segment at `g` is changed by `f`. -/
def modifySeg (s : Chm T K V Λ) (g : SegPtr T)
    (f : ConcHashmapSegment T Λ → ConcHashmapSegment T Λ) : Chm T K V Λ :=
  { s with segs := s.segs.modify g f }

/-- `g->table[i] = q`. -/
def setTable (s : Chm T K V Λ) (g : SegPtr T) (i : ℕ) (q : Ptr T) : Chm T K V Λ :=
  s.modifySeg g fun n => { n with table := Function.update n.table i q }

/-- `g->lock` becomes `w`. -/
def setLock (s : Chm T K V Λ) (g : SegPtr T) (w : Λ) : Chm T K V Λ :=
  s.modifySeg g fun n => { n with lock := w }

/-- `g->size = n`. -/
def setSize (s : Chm T K V Λ) (g : SegPtr T) (size : ℕ) : Chm T K V Λ :=
  s.modifySeg g fun n => { n with size := size }

/-- `allocate_ll_simple(key, val, next)` by thread `t`. -/
def allocateLlSimple (s : Chm T K V Λ) (t : T) (key : K) (val : V) (next : Ptr T) :
    Chm T K V Λ × Ptr T :=
  let (memory, n) := s.memory.allocate t ⟨key, val, next⟩
  ({ s with memory := memory }, n)

/-- `allocate_conc_hashmap_segment(capacity, load_factor)` by thread `t`. -/
def allocateSegment (s : Chm T K V Λ) (initLock : Λ) (t : T) (capacity loadFactor : ℕ) :
    Chm T K V Λ × SegPtr T :=
  let (segs, g) := s.segs.allocate (some t) (newSegment initLock capacity loadFactor)
  ({ s with segs := segs }, g)

/-- `ll_simple_release(x)`. -/
def release (s : Chm T K V Λ) (x : Ptr T) : Chm T K V Λ := { s with memory := s.memory.ssmemFree x }

/-- `*bucket` if `pred` is `NULL`, and `pred->next` otherwise, becomes `q`. -/
def setLink (s : Chm T K V Λ) (g : SegPtr T) (i : ℕ) (pred q : Ptr T) : Chm T K V Λ :=
  if pred ≠ .null then s.setNext pred q else s.setTable g i q

/-- The constructor, on nodes that hold anything. -/
def initial (C : ChmConfig K) (initLock : Λ) (node : ChmNode T K V) : Chm T K V Λ where
  memory := ⟨fun _ => node, fun _ => 0, []⟩
  segs := ⟨fun _ => newSegment initLock C.capacitySeg C.loadFactor,
    Function.update (fun _ => 0) none C.numSegments, []⟩
  segments i := .node none i
  freedTables := []

end Chm

namespace HashtableJava

variable {T K V Λ A : Type*} [DecidableEq T] [DecidableEq K]

/-! ### Code -/

/-- What walks a list without the lock. -/
inductive Walk where
  | search
  | contains
  deriving DecidableEq

/-- The local variables of `chm_segment_rehash`. -/
structure Re (T : Type*) where
  segOld : SegPtr T
  segNew : SegPtr T
  newNode : Ptr T

/-- Where a call is, with the local variables that are live there. `A` is where
a `TRYLOCK_A` is. -/
inductive Pc (T V A : Type*) where
  /-- `seg = chm->segments[seg_num]`, before a walk -/
  | walkSeg (w : Walk)
  /-- `curr = *bucket` -/
  | walkBucket (w : Walk) (seg : SegPtr T)
  /-- `curr->key == key` -/
  | walkKey (w : Walk) (curr : Ptr T)
  /-- `curr = curr->next` -/
  | walkNext (w : Walk) (curr : Ptr T)
  /-- `search`: `return curr->val` -/
  | walkVal (curr : Ptr T)
  /-- `seg = chm->segments[seg_num]`, before `TRYLOCK_A` -/
  | lockSeg
  /-- `TRYLOCK_A(seg_lock)` -/
  | tryLock (seg : SegPtr T) (a : A)
  /-- `curr = *bucket`, under the lock -/
  | bucket (seg : SegPtr T)
  /-- `curr->key == key`, under the lock -/
  | testKey (seg : SegPtr T) (pred curr : Ptr T)
  /-- `pred = curr; curr = curr->next` -/
  | loadNext (seg : SegPtr T) (curr : Ptr T)
  /-- `insert`: `UNLOCK_A(seg_lock)`, before `return 0` -/
  | unlockFound (seg : SegPtr T)
  /-- `n = allocate_ll_simple(key, val, NULL)` -/
  | alloc (seg : SegPtr T) (pred : Ptr T)
  /-- `sizepp = seg->size + 1`, and `sizepp >= seg->size_limit` -/
  | loadSize (seg : SegPtr T) (pred n : Ptr T)
  /-- `pred->next = n` or `*bucket = n` -/
  | link (seg : SegPtr T) (pred n : Ptr T) (sizepp : ℕ)
  /-- `seg->size = sizepp` -/
  | setSize (seg : SegPtr T) (sizepp : ℕ)
  /-- `UNLOCK_A(seg_lock)`, before `return 1` -/
  | unlockInsert (seg : SegPtr T)
  /-- `remove`: `UNLOCK_A(seg_lock)`, before the last `return 0` -/
  | unlockMissing (seg : SegPtr T)
  /-- `curr->next` in `pred->next = curr->next` or `*bucket = curr->next` -/
  | unlinkNext (seg : SegPtr T) (pred curr : Ptr T)
  /-- `pred->next = next` or `*bucket = next`, where `next` is what was read -/
  | unlink (seg : SegPtr T) (pred curr next : Ptr T)
  /-- `ll_simple_release(curr)` -/
  | free (seg : SegPtr T) (curr : Ptr T)
  /-- `seg->size` in `seg->size--` -/
  | loadSizeRemove (seg : SegPtr T) (curr : Ptr T)
  /-- the store of `seg->size--` -/
  | setSizeRemove (seg : SegPtr T) (curr : Ptr T) (size : ℕ)
  /-- `UNLOCK_A(seg_lock)`, before `return curr->val` -/
  | unlockRemove (seg : SegPtr T) (curr : Ptr T)
  /-- `return curr->val` -/
  | removeVal (curr : Ptr T)
  /-- `chm_segment_rehash`: `seg_old = *seg_old_pointer` -/
  | reOld (seg : SegPtr T) (newNode : Ptr T)
  /-- `seg_new = allocate_conc_hashmap_segment(seg_old->num_buckets<<1, ...)` -/
  | reAlloc (segOld : SegPtr T) (newNode : Ptr T)
  /-- `b < seg_old->num_buckets`, and `curr = seg_old->table[b]` -/
  | reBucket (r : Re T) (b : ℕ)
  /-- `next = curr->next`, and `NULL == next` -/
  | reFirst (r : Re T) (b : ℕ) (curr : Ptr T)
  /-- `seg_new->table[idx] = curr` -/
  | reOnly (r : Re T) (b : ℕ) (curr : Ptr T) (idx : ℕ)
  /-- `k = hash(last->key, chm->hash_seed) & mask_new`, and `k != last_idx` -/
  | reLast (r : Re T) (b : ℕ) (curr lastRun : Ptr T) (lastIdx : ℕ) (last : Ptr T)
  /-- `last = last->next` -/
  | reLastNext (r : Re T) (b : ℕ) (curr lastRun : Ptr T) (lastIdx : ℕ) (last : Ptr T)
  /-- `seg_new->table[last_idx] = last_run` -/
  | reRun (r : Re T) (b : ℕ) (curr lastRun : Ptr T) (lastIdx : ℕ)
  /-- `n = allocate_ll_simple(p->key, p->val, seg_new->table[k])` -/
  | reCopy (r : Re T) (b : ℕ) (p lastRun : Ptr T)
  /-- `seg_new->table[k] = n` -/
  | reStore (r : Re T) (b : ℕ) (p lastRun : Ptr T) (k : ℕ) (n : Ptr T)
  /-- `ll_simple_release(p)` -/
  | reFree (r : Re T) (b : ℕ) (p lastRun : Ptr T)
  /-- `p = p->next` -/
  | reNext (r : Re T) (b : ℕ) (p lastRun : Ptr T)
  /-- `seg_new->table[new_idx]` in `new_node->next = seg_new->table[new_idx]` -/
  | reNew (r : Re T)
  /-- `new_node->next = next`, where `next` is what was read -/
  | reNewNext (r : Re T) (next : Ptr T)
  /-- `seg_new->table[new_idx] = new_node` -/
  | reNewStore (r : Re T)
  /-- `seg_old->size` in `seg_new->size = seg_old->size+1` -/
  | reSize (r : Re T)
  /-- `seg_new->size = size`, where `size` is what was read, and 1 -/
  | reSetSize (r : Re T) (size : ℕ)
  /-- `chm->segments[seg_num] = seg_new` -/
  | rePublish (r : Re T)
  /-- `ssmem_release(alloc, seg_old)` -/
  | reRelease (segOld : SegPtr T)
  /-- `ssmem_release(alloc, seg_old->table)` -/
  | reReleaseTable (segOld : SegPtr T)
  /-- `return r` from a call that took effect -/
  | done (r : Answer V)
  /-- `return r` from a call that changed nothing -/
  | unchanged (r : Answer V)

variable [Zero V]

def start (C : ChmConfig K) : Call K V → Pc T V A
  | .search _ => .walkSeg .search
  | .insert _ _ => if C.roFail then .walkSeg .contains else .lockSeg
  | .remove _ => if C.roFail then .walkSeg .contains else .lockSeg

/-- Behind a walk that met `NULL`. -/
def walkMissed : Walk → Call K V → Pc T V A
  | .contains, .insert _ _ => .lockSeg
  | _, _ => .unchanged (.val 0)

/-- Behind a walk that met the key at `curr`. -/
def walkFound (curr : Ptr T) : Walk → Call K V → Pc T V A
  | .contains, .insert _ _ => .unchanged (.flag false)
  | .contains, _ => .lockSeg
  | .search, _ => .walkVal curr

/-- `while (curr != NULL)` of a walk. -/
def walkTo (op : Call K V) (w : Walk) (curr : Ptr T) : Pc T V A :=
  if curr ≠ .null then .walkKey w curr else walkMissed w op

/-- `while (curr != NULL)` under the lock. -/
def scanTo (op : Call K V) (seg : SegPtr T) (pred curr : Ptr T) : Pc T V A :=
  if curr ≠ .null then .testKey seg pred curr
  else match op with
    | .insert _ _ => .alloc seg pred
    | _ => .unlockMissing seg

/-- `p != last_run`, and what follows the loop. -/
def copyTo (r : Re T) (b : ℕ) (p lastRun : Ptr T) : Pc T V A :=
  if p ≠ lastRun then .reCopy r b p lastRun else .reBucket r (b + 1)

/-- The next access of thread `me` to shared memory, and what follows from it. -/
def step (C : ChmConfig K) (O : TryLockOps T Λ A) (me : T) (s : Chm T K V Λ) (op : Call K V) :
    Pc T V A → Chm T K V Λ × Pc T V A
  | .walkSeg w => (s, .walkBucket w (s.segments (C.segNum op.key)))
  | .walkBucket w seg =>
    (s, walkTo op w ((s.seg seg).table (C.bucket (s.seg seg).numBuckets op.key)))
  | .walkKey w curr => (s, if s.key curr = op.key then walkFound curr w op else .walkNext w curr)
  | .walkNext w curr => (s, walkTo op w (s.next curr))
  | .walkVal curr => (s, .unchanged (.val (s.val curr)))
  | .lockSeg => (s, .tryLock (s.segments (C.segNum op.key)) O.first)
  | .tryLock seg a =>
    let (w, r) := O.step me (s.lock seg) a
    (s.setLock seg w,
      match r with
      | .inl a' => .tryLock seg a'
      | .inr value => if value ≠ 0 then .bucket seg else .lockSeg)
  | .bucket seg =>
    (s, scanTo op seg .null ((s.seg seg).table (C.bucket (s.seg seg).numBuckets op.key)))
  | .testKey seg pred curr =>
    (s, if s.key curr = op.key then
        match op with
        | .insert _ _ => .unlockFound seg
        | _ => .unlinkNext seg pred curr
      else .loadNext seg curr)
  | .loadNext seg curr => (s, scanTo op seg curr (s.next curr))
  | .unlockFound seg => (s.setLock seg (O.unlock me (s.lock seg)), .unchanged (.flag false))
  | .alloc seg pred =>
    match op with
    | .insert k v =>
      let (s', n) := s.allocateLlSimple me k v .null
      (s', .loadSize seg pred n)
    | _ => (s, .alloc seg pred)
  | .loadSize seg pred n =>
    let sizepp := (s.seg seg).size + 1
    (s, if (s.seg seg).sizeLimit ≤ sizepp then .reOld seg n else .link seg pred n sizepp)
  | .link seg pred n sizepp =>
    (s.setLink seg (C.bucket (s.seg seg).numBuckets op.key) pred n, .setSize seg sizepp)
  | .setSize seg sizepp => (s.setSize seg sizepp, .unlockInsert seg)
  | .unlockInsert seg => (s.setLock seg (O.unlock me (s.lock seg)), .done (.flag true))
  | .unlockMissing seg => (s.setLock seg (O.unlock me (s.lock seg)), .unchanged (.val 0))
  | .unlinkNext seg pred curr => (s, .unlink seg pred curr (s.next curr))
  | .unlink seg pred curr next =>
    (s.setLink seg (C.bucket (s.seg seg).numBuckets op.key) pred next, .free seg curr)
  | .free seg curr => (s.release curr, .loadSizeRemove seg curr)
  | .loadSizeRemove seg curr => (s, .setSizeRemove seg curr ((s.seg seg).size - 1))
  | .setSizeRemove seg curr size => (s.setSize seg size, .unlockRemove seg curr)
  | .unlockRemove seg curr => (s.setLock seg (O.unlock me (s.lock seg)), .removeVal curr)
  | .removeVal curr => (s, .done (.val (s.val curr)))
  | .reOld _ newNode => (s, .reAlloc (s.segments (C.segNum op.key)) newNode)
  | .reAlloc segOld newNode =>
    let (s', segNew) := s.allocateSegment O.init me (2 * (s.seg segOld).numBuckets)
      (s.seg segOld).loadFactor
    (s', .reBucket ⟨segOld, segNew, newNode⟩ 0)
  | .reBucket r b =>
    (s, if b < (s.seg r.segOld).numBuckets then
        if (s.seg r.segOld).table b ≠ .null then .reFirst r b ((s.seg r.segOld).table b)
        else .reBucket r (b + 1)
      else .reNew r)
  | .reFirst r b curr =>
    let idx := C.bucket (s.seg r.segNew).numBuckets (s.key curr)
    (s, if s.next curr = .null then .reOnly r b curr idx else .reLast r b curr curr idx (s.next curr))
  | .reOnly r b curr idx => (s.setTable r.segNew idx curr, .reBucket r (b + 1))
  | .reLast r b curr lastRun lastIdx last =>
    let k := C.bucket (s.seg r.segNew).numBuckets (s.key last)
    (s, if k ≠ lastIdx then .reLastNext r b curr last k last
      else .reLastNext r b curr lastRun lastIdx last)
  | .reLastNext r b curr lastRun lastIdx last =>
    (s, if s.next last ≠ .null then .reLast r b curr lastRun lastIdx (s.next last)
      else .reRun r b curr lastRun lastIdx)
  | .reRun r b curr lastRun lastIdx =>
    (s.setTable r.segNew lastIdx lastRun, copyTo r b curr lastRun)
  | .reCopy r b p lastRun =>
    let k := C.bucket (s.seg r.segNew).numBuckets (s.key p)
    let (s', n) := s.allocateLlSimple me (s.key p) (s.val p) ((s.seg r.segNew).table k)
    (s', .reStore r b p lastRun k n)
  | .reStore r b p lastRun k n => (s.setTable r.segNew k n, .reFree r b p lastRun)
  | .reFree r b p lastRun => (s.release p, .reNext r b p lastRun)
  | .reNext r b p lastRun => (s, copyTo r b (s.next p) lastRun)
  | .reNew r =>
    (s, .reNewNext r
      ((s.seg r.segNew).table (C.bucket (s.seg r.segNew).numBuckets (s.key r.newNode))))
  | .reNewNext r next => (s.setNext r.newNode next, .reNewStore r)
  | .reNewStore r =>
    (s.setTable r.segNew (C.bucket (s.seg r.segNew).numBuckets (s.key r.newNode)) r.newNode,
      .reSize r)
  | .reSize r => (s, .reSetSize r ((s.seg r.segOld).size + 1))
  | .reSetSize r size => (s.setSize r.segNew size, .rePublish r)
  | .rePublish r =>
    ({ s with segments := Function.update s.segments (C.segNum op.key) r.segNew },
      .reRelease r.segOld)
  | .reRelease segOld => ({ s with segs := s.segs.ssmemFree segOld }, .reReleaseTable segOld)
  | .reReleaseTable segOld =>
    ({ s with freedTables := segOld :: s.freedTables }, .done (.flag true))
  | .done r => (s, .done r)
  | .unchanged r => (s, .unchanged r)

def result : Pc T V A → Option (Answer V)
  | .done r => some r
  | .unchanged r => some r
  | _ => none

/-- The table of any build, for clients that store values other than 0. -/
def program (C : ChmConfig K) (O : TryLockOps T Λ A) (node : ChmNode T K V) :
    Program T (Call K V) (Answer V) (Chm T K V Λ) (Pc T V A) Unit where
  init := Chm.initial C O.init node
  pre op := ∀ k v, op = .insert k v → v ≠ 0
  start := start C
  step _ me s op l := some (step C O me s op l)
  result := result

end HashtableJava

end Ascylib
