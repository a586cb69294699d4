/-
# The array map with one OPTIK word

`src/algorithms/array_map_optik.h` with integer words, one local state for
each access to shared memory. A slot with key 0 is free. `search` reads the
word, looks for the key and validates only a value that it found; `insert` and
`remove` take the lock with the version from before their scan. What they
answer without the lock is not validated.

`insert` writes the key before the value, and a slot keeps the value of the
key that was in it before. So the map gains the key at the write of the key,
with a value that is not in memory yet: the ghost state `Pending` has it.

Key theorem: `array_map_optik`.
-/
import Ascylib.OptikWord
import Ascylib.Search
import Ascylib.Concur.Chain
import Ascylib.Concur.Ghost
import Mathlib.Data.Set.Finite.Range

set_option linter.unusedSectionVars false

namespace Ascylib

open Concur Chain

/-- `key_val` -/
structure KeyVal (K V : Type*) where
  key : K
  val : V

/-- `ll_array_optik`: the slots, and `lock`. -/
structure ArrayMap (size : ℕ) (K V : Type*) where
  array : Fin size → KeyVal K V
  lock : OptikT

namespace ArrayMap

variable {size : ℕ} {K V : Type*}

abbrev key (s : ArrayMap size K V) (i : Fin size) : K := (s.array i).key

abbrev val (s : ArrayMap size K V) (i : Fin size) : V := (s.array i).val

/-- `map->array[i].key = k` -/
def setKey (s : ArrayMap size K V) (i : Fin size) (k : K) : ArrayMap size K V :=
  { s with array := Function.update s.array i ⟨k, s.val i⟩ }

/-- `map->array[i].val = v` -/
def setVal (s : ArrayMap size K V) (i : Fin size) (v : V) : ArrayMap size K V :=
  { s with array := Function.update s.array i ⟨s.key i, v⟩ }

/-- `CAS_U64(map->lock, old, new) == old`: whether it succeeded, and the map after it. -/
def casLock (s : ArrayMap size K V) (old new : OptikT) : Bool × ArrayMap size K V :=
  if s.lock = old then (true, { s with lock := new }) else (false, s)

variable {s s' : ArrayMap size K V} {i j : Fin size} {k : K} {v : V} {old new : OptikT}

@[simp] theorem key_setKey : (s.setKey i k).key i = k := by simp [setKey, key]

@[simp] theorem key_setKey_of_ne (h : j ≠ i) : (s.setKey i k).key j = s.key j := by
  simp [setKey, key, h]

@[simp] theorem val_setKey : (s.setKey i k).val j = s.val j := by
  by_cases h : j = i
  · subst h
    simp [setKey, val]
  · simp [setKey, val, h]

@[simp] theorem key_setVal : (s.setVal i v).key j = s.key j := by
  by_cases h : j = i
  · subst h
    simp [setVal, key]
  · simp [setVal, key, h]

@[simp] theorem val_setVal : (s.setVal i v).val i = v := by simp [setVal, val]

@[simp] theorem val_setVal_of_ne (h : j ≠ i) : (s.setVal i v).val j = s.val j := by
  simp [setVal, val, h]

theorem casLock_true (h : s.casLock old new = (true, s')) :
    s.lock = old ∧ s' = { s with lock := new } := by
  unfold casLock at h
  split at h
  · cases h; exact ⟨‹_›, rfl⟩
  · cases h

theorem casLock_false (h : s.casLock old new = (false, s')) : s' = s := by
  unfold casLock at h
  split at h <;> cases h
  rfl

end ArrayMap

/-- The finite map of at most `size` keys: an insert into a full map fails. -/
noncomputable def boundedMap (size : ℕ) (K V : Type*) [DecidableEq K] [Zero V] :
    Object (Call K V) (Answer V) (K → Option V) where
  init := fun _ => none
  apply
    | .insert k v, m =>
      if size ≤ {j | m j ≠ none}.ncard then (m, .flag false)
      else (mapObject K V).apply (.insert k v) m
    | op, m => (mapObject K V).apply op m

section boundedMap

variable {size : ℕ} {K V : Type*} [DecidableEq K] [Zero V] {m : K → Option V} {k : K} {v w : V}

theorem bounded_remove (m : K → Option V) (k : K) :
    (boundedMap size K V).apply (.remove k) m = (mapObject K V).apply (.remove k) m := rfl

theorem bounded_insert_some (h : m k = some w) :
    (boundedMap size K V).apply (.insert k v) m = (m, .flag false) := by
  by_cases hf : size ≤ {j | m j ≠ none}.ncard
  · exact if_pos hf
  · exact (if_neg hf).trans (apply_insert_some h)

theorem bounded_insert_full (h : size ≤ {j | m j ≠ none}.ncard) :
    (boundedMap size K V).apply (.insert k v) m = (m, .flag false) := if_pos h

theorem bounded_insert_none (h : ¬ size ≤ {j | m j ≠ none}.ncard) (hn : m k = none) :
    (boundedMap size K V).apply (.insert k v) m = (Function.update m k (some v), .flag true) :=
  (if_neg h).trans (apply_insert_none hn)

end boundedMap

namespace ArrayMapOptik

variable {size : ℕ} {T K V : Type*} [DecidableEq T] [DecidableEq K] [Zero K] [Zero V]

/-- Where a call is, with the local variables that are live there. -/
inductive Pc (size : ℕ) (V : Type*) where
  /-- `search`: the load of `optik_get_version_wait(map->lock)` -/
  | searchVersion
  /-- `map->array[i].key == key` -/
  | searchKey (version : OptikT) (i : Fin size)
  /-- `val = map->array[i].val` -/
  | searchVal (version : OptikT) (i : Fin size)
  /-- `optik_is_same_version(version, *map->lock)` -/
  | searchSame (version : OptikT) (val : V)
  /-- `insert`: `version = *map->lock` -/
  | insertVersion
  /-- `ck = map->array[i].key` -/
  | insertKey (version : OptikT) (i : Fin size) (freeIdx : Option (Fin size))
  /-- `optik_trylock_version(map->lock, version)`: the test -/
  | insertTry (version : OptikT) (freeIdx : Option (Fin size))
  /-- and the CAS -/
  | insertCas (version : OptikT) (freeIdx : Option (Fin size))
  /-- `map->array[free_idx].key = key` -/
  | insertStoreKey (freeIdx : Fin size)
  /-- `map->array[free_idx].val = val` -/
  | insertStoreVal (freeIdx : Fin size)
  /-- `optik_unlock(map->lock)`: the load -/
  | insertUnlock (res : Bool)
  /-- and the store -/
  | insertUnlocked (res : Bool) (ver : OptikT)
  /-- `remove`: `version = *map->lock` -/
  | removeVersion
  /-- `map->array[i].key == key` -/
  | removeKey (version : OptikT) (i : Fin size)
  /-- `optik_trylock_version(map->lock, version)`: the test -/
  | removeTry (version : OptikT) (i : Fin size)
  /-- and the CAS -/
  | removeCas (version : OptikT) (i : Fin size)
  /-- `val = map->array[i].val` -/
  | removeVal (i : Fin size)
  /-- `map->array[i].key = 0` -/
  | removeStore (i : Fin size) (val : V)
  /-- `optik_unlock(map->lock)`: the load -/
  | removeUnlock (val : V)
  /-- and the store -/
  | removeUnlocked (val : V) (ver : OptikT)
  /-- `return r` from a call that took effect -/
  | done (r : Answer V)
  /-- `return r` from a call that changed nothing -/
  | unchanged (r : Answer V)

/-- `for (...; i < map->size; i++)`: the body, or what follows the loop. -/
def loop {α : Type*} (i : ℕ) (body : Fin size → α) (exit : α) : α :=
  if h : i < size then body ⟨i, h⟩ else exit

def start : Call K V → Pc size V
  | .search _ => .searchVersion
  | .insert _ _ => .insertVersion
  | .remove _ => .removeVersion

/-- The next access to shared memory, and what follows from it. -/
def step (s : ArrayMap size K V) (op : Call K V) : Pc size V → ArrayMap size K V × Pc size V
  | .searchVersion =>
    (s, if optikIsLocked s.lock then .searchVersion
      else loop 0 (.searchKey s.lock) (.unchanged (.val 0)))
  | .searchKey version i =>
    (s, if s.key i = op.key then .searchVal version i
      else loop (i + 1) (.searchKey version) (.unchanged (.val 0)))
  | .searchVal version i => (s, .searchSame version (s.val i))
  | .searchSame version val =>
    (s, if version = s.lock then .unchanged (.val val) else .searchVersion)
  | .insertVersion => (s, loop 0 (.insertKey s.lock · none) (.insertTry s.lock none))
  | .insertKey version i freeIdx =>
    if s.key i = op.key then (s, .unchanged (.flag false))
    else
      let freeIdx := if s.key i = 0 then some i else freeIdx
      (s, loop (i + 1) (.insertKey version · freeIdx) (.insertTry version freeIdx))
  | .insertTry version freeIdx =>
    (s, if optikOutdated s.lock version then .insertVersion else .insertCas version freeIdx)
  | .insertCas version freeIdx =>
    match s.casLock version (version + 1) with
    | (true, s') =>
      (s', match freeIdx with
        | some i => .insertStoreKey i
        | none => .insertUnlock false)
    | (false, s') => (s', .insertVersion)
  | .insertStoreKey i => (s.setKey i op.key, .insertStoreVal i)
  | .insertStoreVal i =>
    match op with
    | .insert _ val => (s.setVal i val, .insertUnlock true)
    | _ => (s, .insertStoreVal i)
  | .insertUnlock res => (s, .insertUnlocked res s.lock)
  | .insertUnlocked res ver => ({ s with lock := ver + 1 }, .done (.flag res))
  | .removeVersion => (s, loop 0 (.removeKey s.lock) (.unchanged (.val 0)))
  | .removeKey version i =>
    (s, if s.key i = op.key then .removeTry version i
      else loop (i + 1) (.removeKey version) (.unchanged (.val 0)))
  | .removeTry version i =>
    (s, if optikOutdated s.lock version then .removeVersion else .removeCas version i)
  | .removeCas version i =>
    match s.casLock version (version + 1) with
    | (true, s') => (s', .removeVal i)
    | (false, s') => (s', .removeVersion)
  | .removeVal i => (s, .removeStore i (s.val i))
  | .removeStore i val => (s.setKey i 0, .removeUnlock val)
  | .removeUnlock val => (s, .removeUnlocked val s.lock)
  | .removeUnlocked val ver => ({ s with lock := ver + 1 }, .done (.val val))
  | .done r => (s, .done r)
  | .unchanged r => (s, .unchanged r)

def result : Pc size V → Option (Answer V)
  | .done r => some r
  | .unchanged r => some r
  | _ => none

/-- The clients' part: keys and values other than 0. -/
def Nonzero (op : Call K V) : Prop := op.key ≠ 0 ∧ ∀ k v, op = .insert k v → v ≠ 0

/-- The map of `size` slots, all of them 0 at first. -/
def program (size : ℕ) (T K V : Type*) [DecidableEq T] [DecidableEq K] [Zero K] [Zero V] :
    Program T (Call K V) (Answer V) (ArrayMap size K V) (Pc size V) Unit where
  init := ⟨fun _ => ⟨0, 0⟩, optikInit⟩
  pre := Nonzero
  start := start
  step _ _ s op l := some (step s op l)
  result := result

/-! ### What a moment shows of a key -/

def Absent (s : ArrayMap size K V) (k : K) : Prop := ∀ i, s.key i ≠ k

def Full (s : ArrayMap size K V) : Prop := ∀ i, s.key i ≠ 0

/-- The value held with a key, or 0. -/
def Held (s : ArrayMap size K V) (k : K) (v : V) : Prop :=
  (v = 0 ∧ Absent s k) ∨ (v ≠ 0 ∧ ∃ i, s.array i = ⟨k, v⟩)

/-- What an answer says about some moment of its call. -/
def Answers (s : ArrayMap size K V) : Call K V → Answer V → Prop
  | .search k, .val v => Held s k v
  | .insert k _, .flag true => Absent s k ∧ ¬ Full s
  | .insert k _, .flag false => ¬ Absent s k ∨ Full s
  | .remove k, .val v => Held s k v
  | _, _ => False

/-- No two slots hold the same key. -/
def Distinct (s : ArrayMap size K V) : Prop := ∀ i j, s.key i ≠ 0 → s.key i = s.key j → i = j

/-- The slots stand for the map, values aside while the lock is held. -/
structure Stands (s : ArrayMap size K V) (m : K → Option V) : Prop where
  key : ∀ k, m k ≠ none ↔ k ≠ 0 ∧ ∃ i, s.key i = k
  val : optikIsLocked s.lock = false → ∀ i, s.key i ≠ 0 → m (s.key i) = some (s.val i)
  finite : {k | m k ≠ none}.Finite
  card : {k | m k ≠ none}.ncard ≤ size

/-! ### The value that is not written yet -/

/-- A slot whose key has been written, and the value that will be. -/
abbrev Pending (size : ℕ) (V : Type*) := Option (Fin size × V)

def pending : Ghost (Call K V) (Pc size V) (Pending size V) where
  init := none
  update op l g :=
    match l, op with
    | .insertStoreKey i, .insert _ val => some (i, val)
    | .insertStoreVal _, _ => none
    | _, _ => g

abbrev Slots (size : ℕ) (K V : Type*) := ArrayMap size K V × Pending size V

/-- The value of a slot, written or not. -/
def valAt (s : Slots size K V) (i : Fin size) : V :=
  match s.2 with
  | some (j, v) => if i = j then v else s.1.val i
  | none => s.1.val i

/-- The map the slots stand for. -/
noncomputable def absMap (s : Slots size K V) : K → Option V :=
  mapOf (fun i => s.1.key i ≠ 0) s.1.key (valAt s)

/-- The word protects the slots. -/
abbrev word (size : ℕ) (K V : Type*) : OptikWord (ArrayMap size K V) (Fin size → KeyVal K V) where
  lock := ArrayMap.lock
  data := ArrayMap.array

/-- And what is pending. -/
abbrev slots (size : ℕ) (K V : Type*) :
    OptikWord (Slots size K V) ((Fin size → KeyVal K V) × Pending size V) where
  lock s := s.1.lock
  data s := (s.1.array, s.2)

/-- Well-formed slots, in a run that went through the slots `S`. -/
structure Wf (S : Set (Slots size K V)) (s : Slots size K V) : Prop where
  versioned : (slots size K V).Versioned S s
  distinct : Distinct s.1
  pending : s.2 ≠ none → optikIsLocked s.1.lock = true
  val : ∀ i, s.1.key i ≠ 0 → valAt s i ≠ 0

/-- The writes of a thread that holds the lock or not before and after. -/
inductive Act (s : Slots size K V) : Bool → Bool → Slots size K V → Prop
  | skip {h : Bool} : Act s h h s
  | take : optikIsLocked s.1.lock = false → Act s false true ({ s.1 with lock := s.1.lock + 1 }, s.2)
  | unlock : optikIsLocked s.1.lock = true → s.1.lock ≠ optikDeleted → s.2 = none →
      Act s true false ({ s.1 with lock := s.1.lock + 1 }, s.2)
  | storeKey {i : Fin size} {k : K} {v : V} : optikIsLocked s.1.lock = true → s.2 = none →
      s.1.key i = 0 → Absent s.1 k → k ≠ 0 → v ≠ 0 → Act s true true (s.1.setKey i k, some (i, v))
  | storeVal {i : Fin size} {v : V} : optikIsLocked s.1.lock = true → s.2 = some (i, v) →
      Act s true true (s.1.setVal i v, none)
  | clear {i : Fin size} : optikIsLocked s.1.lock = true → s.2 = none → s.1.key i ≠ 0 →
      Act s true true (s.1.setKey i 0, s.2)

/-- What a step of a thread that holds the lock or not leaves alone. -/
structure Keeps (h : Bool) (s s' : Slots size K V) : Prop where
  touch : (slots size K V).Touch s s'
  data : h = false → s'.1.array = s.1.array ∧ s'.2 = s.2
  locked : h = false → optikIsLocked s.1.lock = true → s'.1.lock = s.1.lock
  gone : ∀ i, s.1.key i ≠ 0 → s'.1.key i ≠ s.1.key i → Absent s'.1 (s.1.key i)

variable {S W : Set (Slots size K V)} {s s' : Slots size K V} {h h' : Bool} {i j : Fin size} {k : K}
  {v : V}

theorem Wf.unique (w : Wf S s) : Unique (fun i => s.1.key i ≠ 0) s.1.key :=
  fun i j hi _ he => w.distinct i j hi he

theorem absMap_eq_none : absMap s k = none ↔ k = 0 ∨ Absent s.1 k := by
  rw [absMap, mapOf_eq_none]
  constructor
  · intro h
    refine or_iff_not_imp_left.mpr fun hk i hi => h i ?_ hi
    rwa [hi]
  · rintro (rfl | h) i hi
    · exact hi
    · exact h i

theorem Wf.absMap_key (w : Wf S s) (hi : s.1.key i ≠ 0) : absMap s (s.1.key i) = some (valAt s i) :=
  mapOf_eq_some w.unique hi

theorem Wf.idle (w : Wf S s) (hu : optikIsLocked s.1.lock = false) : s.2 = none := by
  by_contra hn
  rw [w.pending hn] at hu
  cases hu

/-- As many keys as slots in use. -/
theorem Wf.ncard (w : Wf S s) : {k | absMap s k ≠ none}.ncard = {i | s.1.key i ≠ 0}.ncard :=
  mapOf_ncard w.unique

theorem ncard_full (s : ArrayMap size K V) : size ≤ {i | s.key i ≠ 0}.ncard ↔ Full s := by
  constructor
  · intro h
    have : {i | s.key i ≠ 0} = Set.univ := by
      refine Set.eq_of_subset_of_ncard_le (Set.subset_univ _) ?_
      rwa [Set.ncard_univ, Nat.card_eq_fintype_card, Fintype.card_fin]
    exact fun i => (Set.ext_iff.mp this i).mpr trivial
  · intro h
    have : {i | s.key i ≠ 0} = Set.univ := Set.eq_univ_of_forall h
    rw [this, Set.ncard_univ, Nat.card_eq_fintype_card, Fintype.card_fin]

theorem Wf.stands (w : Wf S s) : Stands s.1 (absMap s) where
  key k := by
    rw [ne_eq, absMap_eq_none, not_or, Absent]
    push Not
    rfl
  val hu i hi := by rw [w.absMap_key hi, valAt, w.idle hu]
  finite := (Set.finite_range s.1.key).subset fun k hk => by
    obtain ⟨i, hi⟩ := not_forall_not.mp fun h => hk (absMap_eq_none.mpr (Or.inr h))
    exact ⟨i, hi⟩
  card := by
    rw [w.ncard]
    exact (Set.ncard_le_card _).trans (Nat.card_fin size).le

/-! ### What the writes do to the map -/

/-- The slot gains a key, and the map with it. -/
theorem storeKey_absMap (w : Wf S s) (h1 : s.2 = none) (h2 : s.1.key i = 0) (h3 : Absent s.1 k)
    (hk : k ≠ 0) : absMap (s.1.setKey i k, some (i, v)) = Function.update (absMap s) k (some v) := by
  have hne : ∀ j, s.1.key j ≠ 0 → j ≠ i := by
    rintro j hj rfl
    exact hj h2
  have hm : mapOf (fun j => (s.1.setKey i k).key j ≠ 0) (s.1.setKey i k).key
      (valAt (s.1.setKey i k, some (i, v))) = Function.update (absMap s) ((s.1.setKey i k).key i)
        (some (valAt (s.1.setKey i k, some (i, v)) i)) :=
    mapOf_insert (fun j => ?_) (fun j hj => ArrayMap.key_setKey_of_ne (hne j hj)) (fun j hj => ?_)
      w.unique fun j _ he => h3 j (by simpa using he)
  · simpa [absMap, valAt] using hm
  · by_cases hj : j = i
    · subst hj
      simpa using hk
    · simp [hj]
  · simp [valAt, h1, hne j hj]

/-- The value that was pending is written. -/
theorem storeVal_absMap (w : Wf S s) (h1 : s.2 = some (i, v)) :
    absMap (s.1.setVal i v, none) = absMap s := by
  refine mapOf_congr (fun j => by simp) (fun j _ => by simp) (fun j _ => ?_) w.unique
  by_cases hj : j = i
  · subst hj
    simp [valAt, h1]
  · simp [valAt, h1, hj]

/-- The slot loses its key. -/
theorem clear_absMap (w : Wf S s) (h2 : s.1.key i ≠ 0) :
    absMap (s.1.setKey i 0, s.2) = Function.update (absMap s) (s.1.key i) none := by
  have hl : ∀ j, (s.1.setKey i 0).key j ≠ 0 ↔ s.1.key j ≠ 0 ∧ j ≠ i := fun j => by
    by_cases hj : j = i
    · subst hj
      simp
    · simp [hj]
  calc absMap (s.1.setKey i 0, s.2)
      = mapOf (fun j => (s.1.setKey i 0).key j ≠ 0) s.1.key (valAt s) :=
        mapOf_congr (fun _ => Iff.rfl)
          (fun j hj => ArrayMap.key_setKey_of_ne ((hl j).mp hj).2) (fun j _ => by simp [valAt])
          fun j _ hj _ he => w.distinct j _ ((hl j).mp hj).1 he
    _ = Function.update (absMap s) (s.1.key i) none :=
        mapOf_remove hl h2 (fun _ _ => rfl) (fun _ _ => rfl) w.unique

namespace Act

variable (w : Wf S s) (a : Act s h h' s')

include w a

omit w in
theorem touch : (slots size K V).Touch s s' := by
  cases a with
  | skip => exact .keep rfl rfl
  | take hu => exact .take hu rfl rfl
  | unlock hl hd => exact .unlock hl hd rfl
  | storeKey hl => exact .write hl rfl
  | storeVal hl => exact .write hl rfl
  | clear hl => exact .write hl rfl

omit w in
/-- The lock is taken only when it is free. -/
theorem was_free (h0 : h = false) (h1 : h' = true) : optikIsLocked s.1.lock = false := by
  cases a with
  | skip => rw [h0] at h1; cases h1
  | take hu => exact hu
  | unlock => cases h1
  | storeKey => cases h0
  | storeVal => cases h0
  | clear => cases h0

theorem wf : Wf (insert s' S) s' := by
  refine ⟨w.versioned.step a.touch, ?_, ?_, ?_⟩
  · cases a with
    | @storeKey i k v _ _ _ habs =>
      intro x y hx he
      by_cases hxi : x = i <;> by_cases hyi : y = i
      · rw [hxi, hyi]
      · subst hxi
        rw [ArrayMap.key_setKey, ArrayMap.key_setKey_of_ne hyi] at he
        exact absurd he.symm (habs y)
      · subst hyi
        rw [ArrayMap.key_setKey, ArrayMap.key_setKey_of_ne hxi] at he
        exact absurd he (habs x)
      · rw [ArrayMap.key_setKey_of_ne hxi] at hx he
        rw [ArrayMap.key_setKey_of_ne hyi] at he
        exact w.distinct x y hx he
    | storeVal =>
      intro x y hx he
      simp only [ArrayMap.key_setVal] at hx he
      exact w.distinct x y hx he
    | @clear i =>
      intro x y hx he
      have hxi : x ≠ i := by
        rintro rfl
        exact hx ArrayMap.key_setKey
      have hyi : y ≠ i := by
        rintro rfl
        rw [ArrayMap.key_setKey] at he
        exact hx he
      rw [ArrayMap.key_setKey_of_ne hxi] at hx he
      rw [ArrayMap.key_setKey_of_ne hyi] at he
      exact w.distinct x y hx he
    | _ => exact w.distinct
  · cases a with
    | skip => exact w.pending
    | take hu => exact fun _ => lock_locked hu
    | unlock _ _ hn => exact fun h => absurd hn h
    | storeKey hl => exact fun _ => hl
    | storeVal => exact fun h => absurd rfl h
    | clear hl => exact fun _ => hl
  · cases a with
    | @storeKey i k v _ hn _ _ _ hv =>
      intro x hx
      by_cases hxi : x = i
      · simpa [valAt, hxi] using hv
      · rw [ArrayMap.key_setKey_of_ne hxi] at hx
        simpa [valAt, hxi, hn] using w.val x hx
    | @storeVal i v _ hp =>
      intro x hx
      rw [ArrayMap.key_setVal] at hx
      have := w.val x hx
      by_cases hxi : x = i
      · subst hxi
        simpa [valAt, hp] using this
      · simpa [valAt, hp, hxi] using this
    | @clear i =>
      intro x hx
      have hxi : x ≠ i := by
        rintro rfl
        exact hx ArrayMap.key_setKey
      rw [ArrayMap.key_setKey_of_ne hxi] at hx
      simpa [valAt] using w.val x hx
    | _ => exact w.val

theorem keeps : Keeps h s s' where
  touch := a.touch
  data hh := by
    cases a with
    | skip => exact ⟨rfl, rfl⟩
    | take => exact ⟨rfl, rfl⟩
    | _ => cases hh
  locked hh hl := by
    cases a with
    | skip => rfl
    | take hu => rw [hu] at hl; cases hl
    | _ => cases hh
  gone x hx hne := by
    cases a with
    | @storeKey i k v _ _ h0 =>
      refine absurd (ArrayMap.key_setKey_of_ne ?_) hne
      rintro rfl
      exact hx h0
    | storeVal => exact absurd ArrayMap.key_setVal hne
    | @clear i =>
      have hxi : x = i := by
        by_contra hxi
        exact hne (ArrayMap.key_setKey_of_ne hxi)
      subst hxi
      intro y hy
      by_cases hyx : y = x
      · subst hyx
        rw [ArrayMap.key_setKey] at hy
        exact hx hy.symm
      · rw [ArrayMap.key_setKey_of_ne hyx] at hy
        exact hyx (w.distinct x y hx hy.symm).symm
    | _ => exact absurd rfl hne

end Act

/-! ### What holds at each point of a call -/

/-- The call holds the lock. -/
def holds : Pc size V → Bool
  | .insertStoreKey _ | .insertStoreVal _ | .insertUnlock _ | .insertUnlocked _ _ | .removeVal _ |
    .removeStore _ _ | .removeUnlock _ | .removeUnlocked _ _ => true
  | _ => false

/-- Some moment, no older than `version`, showed `φ` of the slots. -/
def Saw (W : Set (Slots size K V)) (version : OptikT) (φ : (Fin size → KeyVal K V) → Prop) : Prop :=
  ∃ s₀ ∈ W, sections version ≤ sections s₀.1.lock ∧ φ s₀.1.array

/-- The key was absent at some moment, or is in a slot that the scan will come to. -/
def Ahead (W : Set (Slots size K V)) (s : Slots size K V) (k : K) (i : ℕ) : Prop :=
  (∃ s₀ ∈ W, Absent s₀.1 k) ∨ ∃ j : Fin size, i ≤ j ∧ s.1.key j = k

/-- What the scan of `insert` has seen of the slots before `i`. -/
structure Scanned (W : Set (Slots size K V)) (version : OptikT) (k : K) (i : ℕ)
    (freeIdx : Option (Fin size)) : Prop where
  past : ∀ j : Fin size, (j : ℕ) < i →
    Saw W version fun a => (a j).key ≠ k ∧ (freeIdx = none → (a j).key ≠ 0)
  free : ∀ j, freeIdx = some j → Saw W version fun a => (a j).key = 0

/-- The lock is held, and nothing is pending. -/
def Owned (s : Slots size K V) : Prop := optikIsLocked s.1.lock = true ∧ s.2 = none

/-- The answer is right about some moment of `W`. -/
def Answered (W : Set (Slots size K V)) (op : Call K V) (r : Answer V) : Prop :=
  ∃ s₀ ∈ W, Answers s₀.1 op r

/-- The assertion at each local state of call `op`, that has seen the slots `W`. -/
def At (W : Set (Slots size K V)) (s : Slots size K V) (op : Call K V) : Pc size V → Prop
  | .searchVersion => ∃ k, op = .search k
  | .searchKey version i => (∃ k, op = .search k) ∧ optikIsLocked version = false ∧
      sections version ≤ sections s.1.lock ∧ Ahead W s op.key i
  | .searchVal version i => (∃ k, op = .search k) ∧ optikIsLocked version = false ∧
      sections version ≤ sections s.1.lock ∧ Saw W version fun a => (a i).key = op.key
  | .searchSame version val => (∃ k, op = .search k) ∧ optikIsLocked version = false ∧
      ∃ i, (Saw W version fun a => (a i).key = op.key) ∧ Saw W version fun a => (a i).val = val
  | .insertVersion => ∃ k v, op = .insert k v
  | .insertKey version i freeIdx => (∃ k v, op = .insert k v) ∧
      sections version ≤ sections s.1.lock ∧ Scanned W version op.key i freeIdx
  | .insertTry version freeIdx => (∃ k v, op = .insert k v) ∧ Scanned W version op.key size freeIdx
  | .insertCas version freeIdx => (∃ k v, op = .insert k v) ∧
      Scanned W version op.key size freeIdx ∧ optikIsLocked version = false
  | .insertStoreKey i => (∃ k v, op = .insert k v) ∧ Owned s ∧ Absent s.1 op.key ∧ s.1.key i = 0
  | .insertStoreVal i => ∃ k v, op = .insert k v ∧ optikIsLocked s.1.lock = true ∧
      s.2 = some (i, v) ∧ Answered W op (.flag true)
  | .insertUnlock res => Owned s ∧ Answered W op (.flag res)
  | .insertUnlocked res ver => Owned s ∧ s.1.lock = ver ∧ Answered W op (.flag res)
  | .removeVersion => ∃ k, op = .remove k
  | .removeKey version i => (∃ k, op = .remove k) ∧ sections version ≤ sections s.1.lock ∧
      Ahead W s op.key i
  | .removeTry version i => (∃ k, op = .remove k) ∧ Saw W version fun a => (a i).key = op.key
  | .removeCas version i => (∃ k, op = .remove k) ∧ (Saw W version fun a => (a i).key = op.key) ∧
      optikIsLocked version = false
  | .removeVal i => (∃ k, op = .remove k) ∧ Owned s ∧ s.1.key i = op.key
  | .removeStore i val => (∃ k, op = .remove k) ∧ Owned s ∧ s.1.key i = op.key ∧ s.1.val i = val
  | .removeUnlock val => Owned s ∧ Answered W op (.val val)
  | .removeUnlocked val ver => Owned s ∧ s.1.lock = ver ∧ Answered W op (.val val)
  | .done r => Answered W op r
  | .unchanged r => ∃ s₀ ∈ W, Answers s₀.1 op r ∧
      (boundedMap size K V).apply op (absMap s₀) = (absMap s₀, r)

variable {op : Call K V} {l : Pc size V} {version : OptikT} {freeIdx : Option (Fin size)}

theorem At.locked (h : At W s op l) (hl : holds l = true) : optikIsLocked s.1.lock = true := by
  cases l
  case insertStoreKey => exact h.2.1.1
  case insertStoreVal => obtain ⟨k, v, -, h1, -⟩ := h; exact h1
  case insertUnlock => exact h.1.1
  case insertUnlocked => exact h.1.1
  case removeVal => exact h.2.1.1
  case removeStore => exact h.2.1.1
  case removeUnlock => exact h.1.1
  case removeUnlocked => exact h.1.1
  all_goals cases hl

theorem Saw.insert {φ : (Fin size → KeyVal K V) → Prop} (h : Saw W version φ) (s' : Slots size K V) :
    Saw (insert s' W) version φ :=
  let ⟨s₀, h0, h1⟩ := h
  ⟨s₀, Set.mem_insert_of_mem _ h0, h1⟩

theorem Scanned.insert {n : ℕ} (h : Scanned W version k n freeIdx) (s' : Slots size K V) :
    Scanned (insert s' W) version k n freeIdx :=
  ⟨fun j hj => (h.past j hj).insert s', fun j hj => (h.free j hj).insert s'⟩

theorem Answered.insert {r : Answer V} (h : Answered W op r) (s' : Slots size K V) :
    Answered (insert s' W) op r :=
  let ⟨s₀, h0, h1⟩ := h
  ⟨s₀, Set.mem_insert_of_mem _ h0, h1⟩

/-- A key that leaves its slot is absent. -/
theorem Ahead.step {n : ℕ} (h₁ : Ahead W s k n) (hk : Keeps h s s') (h0 : k ≠ 0) :
    Ahead (insert s' W) s' k n := by
  rcases h₁ with ⟨s₀, hs₀, ha⟩ | ⟨j, hj, rfl⟩
  · exact Or.inl ⟨s₀, Set.mem_insert_of_mem _ hs₀, ha⟩
  · by_cases he : s'.1.key j = s.1.key j
    · exact Or.inr ⟨j, hj, he⟩
    · exact Or.inl ⟨s', Set.mem_insert _ _, hk.gone j h0 he⟩

theorem Scanned.mono {m n : ℕ} (h : Scanned W version k n freeIdx) (hm : m ≤ n) :
    Scanned W version k m freeIdx :=
  ⟨fun j hj => h.past j (hj.trans_le hm), h.free⟩

/-- A step of another thread keeps the assertion. -/
theorem At.step (h₁ : At W s op l) (h0 : op.key ≠ 0) (hH : holds l = true → h = false)
    (hk : Keeps h s s') : At (insert s' W) s' op l := by
  have hle : ∀ {v : OptikT}, sections v ≤ sections s.1.lock → sections v ≤ sections s'.1.lock :=
    fun hv => hv.trans hk.touch.sections_le
  -- while this call holds the lock, nothing changes
  have hsame : holds l = true → optikIsLocked s.1.lock = true →
      s'.1.array = s.1.array ∧ s'.2 = s.2 ∧ s'.1.lock = s.1.lock := fun hl hlk =>
    ⟨(hk.data (hH hl)).1, (hk.data (hH hl)).2, hk.locked (hH hl) hlk⟩
  have howned : holds l = true → Owned s → Owned s' := fun hl ho => by
    obtain ⟨-, h2, h3⟩ := hsame hl ho.1
    exact ⟨h3 ▸ ho.1, h2.trans ho.2⟩
  cases l with
  | searchVersion => exact h₁
  | searchKey version i =>
    obtain ⟨h1, h2, h3, h4⟩ := h₁
    exact ⟨h1, h2, hle h3, h4.step hk h0⟩
  | searchVal version i =>
    obtain ⟨h1, h2, h3, h4⟩ := h₁
    exact ⟨h1, h2, hle h3, h4.insert s'⟩
  | searchSame version val =>
    obtain ⟨h1, h2, i, h3, h4⟩ := h₁
    exact ⟨h1, h2, i, h3.insert s', h4.insert s'⟩
  | insertVersion => exact h₁
  | insertKey version i freeIdx =>
    obtain ⟨h1, h2, h3⟩ := h₁
    exact ⟨h1, hle h2, h3.insert s'⟩
  | insertTry version freeIdx => exact ⟨h₁.1, h₁.2.insert s'⟩
  | insertCas version freeIdx =>
    obtain ⟨h1, h2, h3⟩ := h₁
    exact ⟨h1, h2.insert s', h3⟩
  | insertStoreKey i =>
    obtain ⟨h1, h2, h3, h4⟩ := h₁
    obtain ⟨h5, -, -⟩ := hsame rfl h2.1
    exact ⟨h1, howned rfl h2, by unfold Absent ArrayMap.key; rw [h5]; exact h3,
      by unfold ArrayMap.key; rw [h5]; exact h4⟩
  | insertStoreVal i =>
    obtain ⟨k, v, h1, h2, h3, h4⟩ := h₁
    obtain ⟨-, h6, h7⟩ := hsame rfl h2
    exact ⟨k, v, h1, h7 ▸ h2, h6.trans h3, h4.insert s'⟩
  | insertUnlock res => exact ⟨howned rfl h₁.1, h₁.2.insert s'⟩
  | insertUnlocked res ver =>
    obtain ⟨h1, h2, h3⟩ := h₁
    exact ⟨howned rfl h1, (hsame rfl h1.1).2.2.trans h2, h3.insert s'⟩
  | removeVersion => exact h₁
  | removeKey version i =>
    obtain ⟨h1, h2, h3⟩ := h₁
    exact ⟨h1, hle h2, h3.step hk h0⟩
  | removeTry version i => exact ⟨h₁.1, h₁.2.insert s'⟩
  | removeCas version i =>
    obtain ⟨h1, h2, h3⟩ := h₁
    exact ⟨h1, h2.insert s', h3⟩
  | removeVal i =>
    obtain ⟨h1, h2, h3⟩ := h₁
    obtain ⟨h5, -, -⟩ := hsame rfl h2.1
    exact ⟨h1, howned rfl h2, by unfold ArrayMap.key; rw [h5]; exact h3⟩
  | removeStore i val =>
    obtain ⟨h1, h2, h3, h4⟩ := h₁
    obtain ⟨h5, -, -⟩ := hsame rfl h2.1
    exact ⟨h1, howned rfl h2, by unfold ArrayMap.key; rw [h5]; exact h3,
      by unfold ArrayMap.val; rw [h5]; exact h4⟩
  | removeUnlock val => exact ⟨howned rfl h₁.1, h₁.2.insert s'⟩
  | removeUnlocked val ver =>
    obtain ⟨h1, h2, h3⟩ := h₁
    exact ⟨howned rfl h1, (hsame rfl h1.1).2.2.trans h2, h3.insert s'⟩
  | done r => exact h₁.insert s'
  | unchanged r =>
    obtain ⟨s₀, hs₀, h1⟩ := h₁
    exact ⟨s₀, Set.mem_insert_of_mem _ hs₀, h1⟩

/-! ### The steps -/

/-- The result of a call that has taken effect. -/
def lin : Pc size V → Option (Answer V)
  | .insertStoreVal _ => some (.flag true)
  | .insertUnlock res => some (.flag res)
  | .insertUnlocked res _ => some (.flag res)
  | .removeUnlock val => some (.val val)
  | .removeUnlocked val _ => some (.val val)
  | .done r => some r
  | _ => none

/-- A step of the map and of what is pending. -/
def next (s : Slots size K V) (op : Call K V) (l : Pc size V) : Slots size K V :=
  ((step s.1 op l).1, pending.update op l s.2)

/-- What a step does: it is one of the writes, it establishes the next
assertion, and it changes the map only where the call takes effect. -/
structure StepOk (W : Set (Slots size K V)) (s : Slots size K V) (op : Call K V) (l : Pc size V)
    (s' : Slots size K V) (l' : Pc size V) : Prop where
  act : Act s (holds l) (holds l') s'
  next : At (insert s' W) s' op l'
  point : (lin l' = lin l ∧ absMap s' = absMap s) ∨ (lin l = none ∧ ∃ r, lin l' = some r ∧
    (boundedMap size K V).apply op (absMap s) = (absMap s', r))

theorem loop_cases {α : Type*} {P : α → Prop} {n : ℕ} {body : Fin size → α} {exit : α}
    (h1 : ∀ h : n < size, P (body ⟨n, h⟩)) (h2 : size ≤ n → P exit) : P (loop n body exit) := by
  unfold loop
  split
  · exact h1 _
  · exact h2 (not_lt.mp ‹_›)

/-- A step that only reads. -/
theorem StepOk.read {l l' : Pc size V} (hs : s ∈ W) (hH : holds l' = holds l) (h : At W s op l')
    (hl : lin l' = lin l) : StepOk W s op l s l' := by
  refine ⟨hH ▸ .skip, ?_, Or.inl ⟨hl, rfl⟩⟩
  rw [Set.insert_eq_of_mem hs]
  exact h

/-- With the lock word still at an even version, the slots show what they showed. -/
theorem Saw.now {φ : (Fin size → KeyVal K V) → Prop} (h : Saw W version φ) (w : Wf S s) (hW : W ⊆ S)
    (hu : optikIsLocked version = false) (he : s.1.lock = version) : φ s.1.array := by
  obtain ⟨s₀, h0, hle, hφ⟩ := h
  have hsince : (slots size K V).Since {s₀} version := by
    rintro _ rfl
    exact hle
  have hd := w.versioned.data_eq (Set.singleton_subset_iff.mpr (hW h0)) hsince hu he rfl
  rw [show s₀.1.array = s.1.array from congrArg Prod.fst hd] at hφ
  exact hφ

/-- The scan has not missed the key: it is in a slot, or absent now. -/
theorem ahead_zero (hs : s ∈ W) : Ahead W s k 0 := by
  by_cases h : Absent s.1 k
  · exact Or.inl ⟨s, hs, h⟩
  · obtain ⟨j, hj⟩ := not_forall_not.mp h
    exact Or.inr ⟨j, Nat.zero_le _, hj⟩

theorem Ahead.next (h : Ahead W s k i) (hne : s.1.key i ≠ k) : Ahead W s k (i + 1) := by
  refine h.imp_right ?_
  rintro ⟨j, hj, hk⟩
  refine ⟨j, Nat.lt_of_le_of_ne hj fun he => hne ?_, hk⟩
  rw [Fin.ext he, hk]

theorem Ahead.absent {n : ℕ} (h : Ahead W s k n) (hn : size ≤ n) : ∃ s₀ ∈ W, Absent s₀.1 k := by
  refine h.resolve_right ?_
  rintro ⟨j, hj, -⟩
  exact absurd j.isLt (not_lt.mpr (hn.trans hj))

theorem scanned_zero : Scanned W version k 0 none :=
  ⟨fun _ hj => absurd hj (Nat.not_lt_zero _), nofun⟩

theorem Scanned.next (h : Scanned W version k i freeIdx) (hs : s ∈ W)
    (hle : sections version ≤ sections s.1.lock) (hne : s.1.key i ≠ k) :
    Scanned W version k (i + 1) (if s.1.key i = 0 then some i else freeIdx) := by
  split
  · rename_i h0
    refine ⟨fun j hj => ?_, fun j hj => ?_⟩
    · rcases Nat.lt_succ_iff_lt_or_eq.mp hj with hj | hj
      · obtain ⟨s₀, h1, h2, h3, -⟩ := h.past j hj
        exact ⟨s₀, h1, h2, h3, nofun⟩
      · exact ⟨s, hs, hle, by rw [Fin.ext hj]; exact hne, nofun⟩
    · cases hj
      exact ⟨s, hs, hle, h0⟩
  · rename_i h0
    refine ⟨fun j hj => ?_, h.free⟩
    rcases Nat.lt_succ_iff_lt_or_eq.mp hj with hj | hj
    · exact h.past j hj
    · rw [Fin.ext hj]
      exact ⟨s, hs, hle, hne, fun _ => h0⟩

/-- A scan validated by the lock. -/
theorem Scanned.now (h : Scanned W version k size freeIdx) (w : Wf S s) (hW : W ⊆ S)
    (hu : optikIsLocked version = false) (he : s.1.lock = version) :
    Absent s.1 k ∧ (freeIdx = none → Full s.1) ∧ ∀ j, freeIdx = some j → s.1.key j = 0 :=
  ⟨fun j => ((h.past j j.isLt).now w hW hu he).1,
    fun hn j => ((h.past j j.isLt).now w hW hu he).2 hn, fun j hj => (h.free j hj).now w hW hu he⟩

/-- An answer 0 of `search` or `remove`. -/
theorem At.zero (ha : ∃ s₀ ∈ W, Absent s₀.1 op.key) (hop : ∀ k v, op ≠ .insert k v) :
    At W s op (.unchanged (.val 0)) := by
  obtain ⟨s₀, h0, ha⟩ := ha
  have hn : absMap s₀ op.key = none := absMap_eq_none.mpr (Or.inr ha)
  rcases op with k | ⟨k, v⟩ | k
  · exact ⟨s₀, h0, Or.inl ⟨rfl, ha⟩, apply_search_none hn⟩
  · exact absurd rfl (hop k v)
  · exact ⟨s₀, h0, Or.inl ⟨rfl, ha⟩, apply_remove_none hn⟩

section step

variable (w : Wf S s) (hs : s ∈ W) (hW : W ⊆ S) (h0 : op.key ≠ 0)

include w hs hW h0

theorem step_ok_search (h : At W s op l)
    (hl : l = .searchVersion ∨ (∃ n i, l = .searchKey n i) ∨ (∃ n i, l = .searchVal n i) ∨
      ∃ n v, l = .searchSame n v) : StepOk W s op l (next s op l) (step s.1 op l).2 := by
  rcases hl with rfl | ⟨n, i, rfl⟩ | ⟨n, i, rfl⟩ | ⟨n, v, rfl⟩
  · obtain ⟨k, rfl⟩ := h
    rcases hu : optikIsLocked s.1.lock with _ | _
    · simp only [step, hu]
      refine loop_cases (fun _ => ?_) fun hn => ?_
      · exact .read hs rfl ⟨⟨k, rfl⟩, hu, le_rfl, ahead_zero hs⟩ rfl
      · exact .read hs rfl (.zero ((ahead_zero hs).absent hn) nofun) rfl
    · simp only [step, hu]
      exact .read hs rfl ⟨k, rfl⟩ rfl
  · obtain ⟨⟨k, rfl⟩, h2, h3, h4⟩ := h
    by_cases he : s.1.key i = k
    · simp only [step, Call.key, he, if_true]
      exact .read hs rfl ⟨⟨k, rfl⟩, h2, h3, s, hs, h3, he⟩ rfl
    · simp only [step, Call.key, he, if_false]
      refine loop_cases (fun _ => ?_) fun hn => ?_
      · exact .read hs rfl ⟨⟨k, rfl⟩, h2, h3, h4.next he⟩ rfl
      · exact .read hs rfl (.zero ((h4.next he).absent hn) nofun) rfl
  · obtain ⟨h1, h2, h3, h4⟩ := h
    exact .read hs rfl ⟨h1, h2, i, h4, s, hs, h3, rfl⟩ rfl
  · obtain ⟨⟨k, rfl⟩, h2, i, h3, h4⟩ := h
    by_cases he : n = s.1.lock
    · simp only [step, he, if_true]
      subst he
      have hk : s.1.key i = k := h3.now w hW h2 rfl
      have hv : s.1.val i = v := h4.now w hW h2 rfl
      have hlive : s.1.key i ≠ 0 := by rwa [hk]
      have hm := w.stands.val h2 i hlive
      rw [hk, hv] at hm
      have hval : valAt s i = v :=
        Option.some.inj ((w.absMap_key hlive).symm.trans (by rw [hk, hm]))
      have hvz : v ≠ 0 := hval ▸ w.val i hlive
      exact .read hs rfl ⟨s, hs, Or.inr ⟨hvz, i, by rw [← hk, ← hv]⟩, apply_search_some hm⟩ rfl
    · simp only [step, he, if_false]
      exact .read hs rfl ⟨k, rfl⟩ rfl

theorem step_ok_scan (h : At W s op l)
    (hl : l = .insertVersion ∨ (∃ n i f, l = .insertKey n i f) ∨ l = .removeVersion ∨
      ∃ n i, l = .removeKey n i) : StepOk W s op l (next s op l) (step s.1 op l).2 := by
  rcases hl with rfl | ⟨n, i, f, rfl⟩ | rfl | ⟨n, i, rfl⟩
  · simp only [step]
    refine loop_cases (fun _ => ?_) fun hn => ?_
    · exact .read hs rfl ⟨h, le_rfl, scanned_zero⟩ rfl
    · exact .read hs rfl ⟨h, scanned_zero.mono hn⟩ rfl
  · obtain ⟨⟨k, v, rfl⟩, h2, h3⟩ := h
    by_cases he : s.1.key i = k
    · have hm := w.absMap_key (i := i) (by rw [he]; exact h0)
      rw [he] at hm
      simp only [next, step, Call.key, he, if_true]
      exact .read hs rfl ⟨s, hs, Or.inl fun ha => ha i he, bounded_insert_some hm⟩ rfl
    · simp only [next, step, Call.key, he, if_false]
      have h4 := h3.next hs h2 he
      refine loop_cases (fun _ => ?_) fun hn => ?_
      · exact .read hs rfl ⟨⟨k, v, rfl⟩, h2, h4⟩ rfl
      · exact .read hs rfl ⟨⟨k, v, rfl⟩, h4.mono hn⟩ rfl
  · obtain ⟨k, rfl⟩ := h
    refine loop_cases (fun _ => ?_) fun hn => ?_
    · exact .read hs rfl ⟨⟨k, rfl⟩, le_rfl, ahead_zero hs⟩ rfl
    · exact .read hs rfl (.zero ((ahead_zero hs).absent hn) nofun) rfl
  · obtain ⟨⟨k, rfl⟩, h2, h3⟩ := h
    by_cases he : s.1.key i = k
    · simp only [step, Call.key, he, if_true]
      exact .read hs rfl ⟨⟨k, rfl⟩, s, hs, h2, he⟩ rfl
    · simp only [step, Call.key, he, if_false]
      refine loop_cases (fun _ => ?_) fun hn => ?_
      · exact .read hs rfl ⟨⟨k, rfl⟩, h2, h3.next he⟩ rfl
      · exact .read hs rfl (.zero ((h3.next he).absent hn) nofun) rfl

theorem step_ok_lock (h : At W s op l)
    (hl : (∃ n f, l = .insertTry n f) ∨ (∃ n f, l = .insertCas n f) ∨ (∃ n i, l = .removeTry n i) ∨
      ∃ n i, l = .removeCas n i) : StepOk W s op l (next s op l) (step s.1 op l).2 := by
  rcases hl with ⟨n, f, rfl⟩ | ⟨n, f, rfl⟩ | ⟨n, i, rfl⟩ | ⟨n, i, rfl⟩
  · obtain ⟨h1, h2⟩ := h
    by_cases ho : optikOutdated s.1.lock n = true
    · simp only [step, ho, if_true]
      exact .read hs rfl h1 rfl
    · simp only [step, ho]
      exact .read hs rfl ⟨h1, h2, not_locked_of_outdated ho⟩ rfl
  · obtain ⟨⟨k, v, rfl⟩, h2, h3⟩ := h
    rcases hc : s.1.casLock n (n + 1) with ⟨⟨⟩, s'⟩
    · simp only [next, step, hc]
      rw [ArrayMap.casLock_false hc]
      exact .read hs rfl ⟨k, v, rfl⟩ rfl
    · obtain ⟨he, rfl⟩ := ArrayMap.casLock_true hc
      obtain ⟨ha, hfull, hfree⟩ := h2.now w hW h3 he
      subst he
      have hn : s.2 = none := w.idle h3
      have hact : Act s false true ({ s.1 with lock := s.1.lock + 1 }, s.2) := .take h3
      have hown : Owned ((⟨s.1.array, s.1.lock + 1⟩, s.2) : Slots size K V) := ⟨lock_locked h3, hn⟩
      simp only [next, step, hc]
      rcases f with _ | i
      · -- the map is full: the call takes effect here
        refine ⟨hact, ⟨hown, _, Set.mem_insert _ _, Or.inr (hfull rfl)⟩, Or.inr ⟨rfl, _, rfl, ?_⟩⟩
        refine bounded_insert_full ?_
        rw [w.ncard]
        exact (ncard_full s.1).mpr (hfull rfl)
      · exact ⟨hact, ⟨⟨k, v, rfl⟩, hown, ha, hfree i rfl⟩, Or.inl ⟨rfl, rfl⟩⟩
  · obtain ⟨h1, h2⟩ := h
    by_cases ho : optikOutdated s.1.lock n = true
    · simp only [step, ho, if_true]
      exact .read hs rfl h1 rfl
    · simp only [step, ho]
      exact .read hs rfl ⟨h1, h2, not_locked_of_outdated ho⟩ rfl
  · obtain ⟨h1, h2, h3⟩ := h
    rcases hc : s.1.casLock n (n + 1) with ⟨⟨⟩, s'⟩
    · simp only [next, step, hc]
      rw [ArrayMap.casLock_false hc]
      exact .read hs rfl h1 rfl
    · obtain ⟨he, rfl⟩ := ArrayMap.casLock_true hc
      have hk : s.1.key i = op.key := h2.now w hW h3 he
      subst he
      simp only [next, step, hc]
      exact ⟨.take h3, ⟨h1, ⟨lock_locked h3, w.idle h3⟩, hk⟩, Or.inl ⟨rfl, rfl⟩⟩

theorem step_ok_write (h : At W s op l) (hd : s.1.lock ≠ optikDeleted)
    (hv : ∀ k v, op = .insert k v → v ≠ 0)
    (hl : (∃ i, l = .insertStoreKey i) ∨ (∃ i, l = .insertStoreVal i) ∨ (∃ r, l = .insertUnlock r) ∨
      (∃ r v, l = .insertUnlocked r v) ∨ (∃ i, l = .removeVal i) ∨ (∃ i v, l = .removeStore i v) ∨
      (∃ r, l = .removeUnlock r) ∨ ∃ r v, l = .removeUnlocked r v) :
    StepOk W s op l (next s op l) (step s.1 op l).2 := by
  rcases hl with ⟨i, rfl⟩ | ⟨i, rfl⟩ | ⟨r, rfl⟩ | ⟨r, n, rfl⟩ | ⟨i, rfl⟩ | ⟨i, v, rfl⟩ | ⟨r, rfl⟩ |
    ⟨r, n, rfl⟩
  · obtain ⟨⟨k, v, rfl⟩, ⟨h2, h3⟩, h4, h5⟩ := h
    have hfull : ¬ Full s.1 := fun hf => hf i h5
    have hn : absMap s k = none := absMap_eq_none.mpr (Or.inr h4)
    have habs : absMap (s.1.setKey i k, some (i, v)) = _ := storeKey_absMap w h3 h5 h4 h0
    refine ⟨.storeKey h2 h3 h5 h4 h0 (hv k v rfl), ?_, Or.inr ⟨rfl, _, rfl, ?_⟩⟩
    · exact ⟨k, v, rfl, h2, rfl, s, Set.mem_insert_of_mem _ hs, h4, hfull⟩
    · rw [bounded_insert_none (by rwa [w.ncard, ncard_full]) hn, ← habs]
      rfl
  · obtain ⟨k, v, rfl, h2, h3, h4⟩ := h
    exact ⟨.storeVal h2 h3, ⟨⟨h2, rfl⟩, h4.insert _⟩, Or.inl ⟨rfl, storeVal_absMap w h3⟩⟩
  · exact .read hs rfl ⟨h.1, rfl, h.2⟩ rfl
  · obtain ⟨⟨h1, h2⟩, rfl, h3⟩ := h
    exact ⟨.unlock h1 hd h2, h3.insert _, Or.inl ⟨rfl, rfl⟩⟩
  · obtain ⟨h1, h2, h3⟩ := h
    exact .read hs rfl ⟨h1, h2, h3, rfl⟩ rfl
  · obtain ⟨⟨k, rfl⟩, h2, h3, h4⟩ := h
    have hlive : s.1.key i ≠ 0 := by rwa [h3]
    replace h3 : s.1.key i = k := h3
    have hval : valAt s i = v := by rw [valAt, h2.2, h4]
    have hm := w.absMap_key hlive
    have habs := clear_absMap w hlive
    rw [hval, h3] at hm
    rw [h3] at habs
    refine ⟨.clear h2.1 h2.2 hlive, ⟨h2, s, Set.mem_insert_of_mem _ hs, Or.inr ⟨?_, i, ?_⟩⟩,
      Or.inr ⟨rfl, _, rfl, ?_⟩⟩
    · rw [← hval]
      exact w.val i hlive
    · rw [← h4, ← h3]
    · rw [bounded_remove, apply_remove_some hm, ← habs]
      rfl
  · exact .read hs rfl ⟨h.1, rfl, h.2⟩ rfl
  · obtain ⟨⟨h1, h2⟩, rfl, h3⟩ := h
    exact ⟨.unlock h1 hd h2, h3.insert _, Or.inl ⟨rfl, rfl⟩⟩

/-- **Every step is one of the writes, and leads to the next assertion.** -/
theorem step_ok (h : At W s op l) (hr : result l = none) (hd : s.1.lock ≠ optikDeleted)
    (hv : ∀ k v, op = .insert k v → v ≠ 0) :
    StepOk W s op l (next s op l) (step s.1 op l).2 := by
  cases l
  case searchVersion | searchKey | searchVal | searchSame =>
    exact step_ok_search w hs hW h0 h (by simp)
  case insertVersion | insertKey | removeVersion | removeKey =>
    exact step_ok_scan w hs hW h0 h (by simp)
  case insertTry | insertCas | removeTry | removeCas => exact step_ok_lock w hs hW h0 h (by simp)
  case insertStoreKey | insertStoreVal | insertUnlock | insertUnlocked | removeVal | removeStore |
      removeUnlock | removeUnlocked => exact step_ok_write w hs hW h0 h hd hv (by simp)
  case done => cases hr
  case unchanged => cases hr

end step

/-! ### Runs -/

/-- The runs with fewer than 2^63 acquisitions. -/
abbrev Few (es : Trace T (Call K V) (Answer V) (ArrayMap size K V) (Pc size V)) :=
  (word size K V).Few (program size T K V) es

theorem start_at (op : Call K V) : At {s} s op (start op) := by
  rcases op with k | ⟨k, v⟩ | k
  · exact ⟨k, rfl⟩
  · exact ⟨k, v, rfl⟩
  · exact ⟨k, rfl⟩

theorem Wf.initial : Wf {((⟨fun _ => ⟨0, 0⟩, optikInit⟩, none) : Slots size K V)}
    (⟨fun _ => ⟨0, 0⟩, optikInit⟩, none) :=
  ⟨.initial _, fun _ _ h _ => absurd rfl h, fun h => absurd rfl h, fun _ h => absurd rfl h⟩

/-- The program beside what is pending. -/
abbrev withPending (size : ℕ) (T K V : Type*) [DecidableEq T] [DecidableEq K] [Zero K] [Zero V] :=
  (pending : Ghost (Call K V) (Pc size V) (Pending size V)).program (program size T K V)

/-- The proof outline. No two threads hold the lock. -/
def outline : Outline (withPending size T K V) (Ghost.lift Few) fun _ _ => False where
  glob es s := Wf ((withPending size T K V).seen es) s ∧
    (slots size K V).Bounded (withPending size T K V) es s
  loc _ W₀ W s op l := W ⊆ W₀ ∧ Nonzero op ∧ At W s op l
  pair f g := holds f.2 = true → holds g.2 = false
  pair_symm h hg := by
    by_contra hf
    rw [Bool.not_eq_false] at hf
    rw [h hf] at hg
    cases hg
  init := ⟨Wf.initial, .initial rfl⟩
  frame := by
    intro es s e th ⟨hw, hb⟩ _
    rw [Program.seen, Set.insert_eq_of_mem hw.versioned.mem]
    exact ⟨hw, hb.frame⟩
  call t hg hs hp := ⟨Set.singleton_subset_iff.mpr hs, hp, start_at _⟩
  call_pair := by
    rintro (k | ⟨k, v⟩ | k) g h <;> cases h
  tau := by
    intro es c t op l i s' l' hr ht hres hstep hfew ⟨hw, hb⟩ ⟨hW, hc, hat⟩
    obtain ⟨rfl, rfl⟩ : next c.shared op l = s' ∧ (step c.shared.1 op l).2 = l' :=
      Prod.mk.inj (Option.some.inj hstep)
    have hs := hr.shared_mem_window (fun _ _ => False) ht
    have hok := step_ok hw hs hW hc.1 hat hres hb.ne_deleted hc.2
    have hk := hok.act.keeps hw
    refine ⟨⟨hok.act.wf hw, hb.step ?_ hok.act.touch⟩, ⟨?_, hc, ?_⟩,
      fun u op₁ l₁ hu hcu ⟨hW₁, hc₁, hat₁⟩ hp =>
        ⟨⟨Set.insert_subset_insert hW₁, hc₁, hat₁.step hc₁.1 (fun hl => ?_) hk⟩, fun hl' => ?_⟩⟩
    · rw [OptikWord.acquisitions_erase (O := word size K V) fun _ => rfl]
      exact hfew
    · rw [extend_of_not id]
      exact Set.insert_subset_insert hW
    · rw [extend_of_not id]
      exact hok.next
    · by_contra hn
      rw [hp (Bool.not_eq_false _ ▸ hn)] at hl
      cases hl
    · by_contra hn
      have hl₁ : holds l₁ = true := Bool.not_eq_false _ ▸ hn
      have hlk := hat₁.locked hl₁
      rcases hl : holds l with _ | _
      · rw [hok.act.was_free hl hl'] at hlk
        cases hlk
      · rw [hp hl] at hl₁
        cases hl₁

section run

variable {es : Trace T (Call K V) (Answer V) (Slots size K V) (Pc size V)}
  {c : Config T (Call K V) (Slots size K V) (Pc size V)}

theorem linearizable [Fintype T] :
    LinearizableIf (boundedMap size K V) (withPending size T K V) (Ghost.lift Few) absMap :=
  Concur.linearizable <| outline.points (fun _ _ => lin)
    (funext fun _ => mapOf_eq_none.mpr fun _ h => absurd rfl h)
    (fun s op => by cases op <;> rfl)
    (fun {es c t op l i s' l'} hr hh ht hres hstep _ => by
      obtain ⟨rfl, rfl⟩ : next c.shared op l = s' ∧ (step c.shared.1 op l).2 = l' :=
        Prod.mk.inj (Option.some.inj hstep)
      obtain ⟨hW, hc, hat⟩ := hh.loc t op l ht
      have hok := step_ok hh.glob.1 (hr.shared_mem_window _ ht) hW hc.1 hat hres
        hh.glob.2.ne_deleted hc.2
      exact ⟨hok.point, fun u op₁ l₁ _ hu => rfl⟩)
    fun {es c t op l r} hr hh ht hres => by
      have hat := (hh.loc t op l ht).2.2
      cases l <;> cases hres
      · exact Or.inl rfl
      · obtain ⟨s, hs, -, h⟩ := hat
        exact Or.inr ⟨rfl, s, hs, h⟩

/-- What a call returns was right at some moment since it was called. -/
theorem answered (hr : (withPending size T K V).RunIf (Ghost.lift Few) es c) {t : T} {op : Call K V}
    {l : Pc size V} {r : Answer V} (ht : c.threads t = some (op, l)) (hres : result l = some r) :
    ∃ s ∈ since t es, Answers s.1 op r := by
  have hat := ((outline.holds hr).loc t op l ht).2.2
  cases l <;> cases hres
  · exact hat
  · obtain ⟨s, hs, h, -⟩ := hat
    exact ⟨s, hs, h⟩

end run

/-- **The array is a map of at most `size` keys.** Its calls are linearizable,
no two slots hold the same key, and every answer was right at some moment of
its call. -/
theorem array_map_optik [Fintype T] :
    HistoriesLinearizableIf (boundedMap size K V) (program size T K V) Few Stands ∧
    ∀ es c, (program size T K V).RunIf Few es c → Distinct c.shared ∧
      ∀ t op l r, c.threads t = some (op, l) → result l = some r →
        ∃ s ∈ since t es, Answers s op r := by
  refine ⟨linearizable.erase fun hr => (outline.holds hr).glob.1.stands, fun es c hr => ?_⟩
  obtain ⟨es', c', hr', rfl, rfl⟩ := hr.ghost pending
  refine ⟨(outline.holds hr').glob.1.distinct, fun t op l r ht hres => ?_⟩
  obtain ⟨s, hs, h⟩ := answered hr' ht hres
  exact ⟨s.1, Ghost.since_erase hs, h⟩

/-- Three threads, and two slots. -/
theorem array_map_optik_three :
    HistoriesLinearizableIf (boundedMap 2 ℕ ℕ) (program 2 (Fin 3) ℕ ℕ) Few Stands :=
  array_map_optik.1

end ArrayMapOptik

end Ascylib
