/-
# Pugh's list with backward pointers

`src/algorithms/linkedlist_pugh.h` with a lock in each node and `RO_FAIL`, one
local state for each access to shared memory. `search_weak_left` walks without
locks; `insert` and `remove` then read `pred->next` once more, and may return
without a lock on what they see there (`search_strong_cond`). Else they lock
their way on from `pred`. `remove` turns the pointer of the node it removed
back to the predecessor.

The second read of `pred->next` can meet a node to the left of the key, one
inserted after the walk or the target of a pointer turned back. `insert` goes
on to the locks, `remove` answers that the key is absent.

Key theorems: `pugh_list_linearizable`, `pugh_list_not_linearizable`.
-/
import Ascylib.LockedList

set_option linter.unusedSectionVars false

namespace Ascylib

open Concur Chain

namespace LinkedListPugh

open LockedList

variable {T K V : Type*} [DecidableEq T] [LinearOrder K]

/-- Where a call is, with the local variables that are live there. -/
inductive Pc (T V : Type*) where
  /-- `search_weak_right`: `succ = head->next` -/
  | weakRight
  /-- `succ->key < key` -/
  | weakRightLt (succ : Ptr T)
  /-- `succ = succ->next` -/
  | weakRightNext (succ : Ptr T)
  /-- `search`: `right->key == key` -/
  | searchEq (right : Ptr T)
  /-- `return right->val` -/
  | searchVal (right : Ptr T)
  /-- `search_weak_left`: `pred = head; succ = pred->next` -/
  | weakLeft
  /-- `succ->key < key` -/
  | weakLeftLt (pred succ : Ptr T)
  /-- `pred = succ; succ = succ->next` -/
  | weakLeftNext (succ : Ptr T)
  /-- `search_strong_cond`: `succ = pred->next` -/
  | condNext (pred : Ptr T)
  /-- `(succ->key == key) == equal` -/
  | condEq (pred succ : Ptr T)
  /-- `LOCK(ND_GET_LOCK(pred))` -/
  | strongLock (pred : Ptr T)
  /-- `succ = pred->next` -/
  | strongNext (pred : Ptr T)
  /-- `succ->key < key` -/
  | strongLt (pred succ : Ptr T)
  /-- `UNLOCK(ND_GET_LOCK(pred)); pred = succ` -/
  | strongUnlock (pred succ : Ptr T)
  /-- `insert` and `remove`: `right->key == key` -/
  | rightEq (left right : Ptr T)
  /-- `insert`: `left->next` -/
  | insertNext (left : Ptr T)
  /-- `n = allocate_ll_locked(key, val, left->next)` -/
  | insertAlloc (left next : Ptr T)
  /-- `left->next = n` -/
  | insertStore (left n : Ptr T)
  /-- `UNLOCK(ND_GET_LOCK(left))` -/
  | insertUnlock (left : Ptr T) (result : Bool)
  /-- `remove`: `LOCK(ND_GET_LOCK(right))` -/
  | removeLock (left right : Ptr T)
  /-- `result = right->val` -/
  | removeVal (left right : Ptr T)
  /-- `right->next` -/
  | removeNext (left right : Ptr T) (result : V)
  /-- `left->next = right->next` -/
  | removeStore (left right next : Ptr T) (result : V)
  /-- `right->next = left` -/
  | removeBack (left right : Ptr T) (result : V)
  /-- `UNLOCK(ND_GET_LOCK(right))` -/
  | removeUnlockRight (left right : Ptr T) (result : V)
  /-- `ll_locked_release(right)` -/
  | removeFree (left right : Ptr T) (result : V)
  /-- `UNLOCK(ND_GET_LOCK(left))`; a result when a node was removed -/
  | removeUnlockLeft (left : Ptr T) (result : Option V)
  /-- `return r` from a call that took effect -/
  | done (r : Answer V)
  /-- `return r` from a call that changed nothing -/
  | unchanged (r : Answer V)

variable [Zero V]

def start : Call K V → Pc T V
  | .search _ => .weakRight
  | .insert _ _ => .weakLeft
  | .remove _ => .weakLeft

/-- `search_strong_cond` returns NULL: what the caller returns then. -/
def failed : Call K V → Answer V
  | .insert _ _ => .flag false
  | _ => .val 0

/-- The argument `equal` of `search_strong_cond`. -/
def equal : Call K V → Bool
  | .insert _ _ => true
  | _ => false

/-- What follows `right->key == key` under the lock. -/
def found (left right : Ptr T) : Call K V → Bool → Pc T V
  | .insert _ _, true => .insertUnlock left false
  | .insert _ _, false => .insertNext left
  | _, true => .removeLock left right
  | _, false => .removeUnlockLeft left none

/-- The next access to shared memory of thread `t`, and what follows from it;
`none` while it waits for a lock. -/
def step (t : T) (s : LockedHeap T K V) (op : Call K V) :
    Pc T V → Option (LockedHeap T K V × Pc T V)
  | .weakRight => some (s, .weakRightLt (s.next .head))
  | .weakRightLt succ =>
    some (s, if s.key succ < op.key then .weakRightNext succ else .searchEq succ)
  | .weakRightNext succ => some (s, .weakRightLt (s.next succ))
  | .searchEq right =>
    some (s, if s.key right = op.key then .searchVal right else .unchanged (.val 0))
  | .searchVal right => some (s, .unchanged (.val (s.val right)))
  | .weakLeft => some (s, .weakLeftLt .head (s.next .head))
  | .weakLeftLt pred succ =>
    some (s, if s.key succ < op.key then .weakLeftNext succ else .condNext pred)
  | .weakLeftNext succ => some (s, .weakLeftLt succ (s.next succ))
  | .condNext pred => some (s, .condEq pred (s.next pred))
  | .condEq pred succ =>
    some (s, if decide (s.key succ = op.key) = equal op then .unchanged (failed op)
      else .strongLock pred)
  | .strongLock pred => (s.acquire t pred).map fun s' => (s', .strongNext pred)
  | .strongNext pred => some (s, .strongLt pred (s.next pred))
  | .strongLt pred succ =>
    some (s, if s.key succ < op.key then .strongUnlock pred succ else .rightEq pred succ)
  | .strongUnlock pred succ => some (s.release pred, .strongLock succ)
  | .rightEq left right => some (s, found left right op (decide (s.key right = op.key)))
  | .insertNext left => some (s, .insertAlloc left (s.next left))
  | .insertAlloc left next =>
    match op with
    | .insert key val =>
      let (s', n) := s.allocateLlLocked t key val next
      some (s', .insertStore left n)
    | _ => some (s, .insertAlloc left next)
  | .insertStore left n => some (s.setNext left n, .insertUnlock left true)
  | .insertUnlock left result =>
    some (s.release left, if result then .done (.flag true) else .unchanged (.flag false))
  | .removeLock left right => (s.acquire t right).map fun s' => (s', .removeVal left right)
  | .removeVal left right => some (s, .removeNext left right (s.val right))
  | .removeNext left right result => some (s, .removeStore left right (s.next right) result)
  | .removeStore left right next result => some (s.setNext left next, .removeBack left right result)
  | .removeBack left right result => some (s.setNext right left, .removeUnlockRight left right result)
  | .removeUnlockRight left right result => some (s.release right, .removeFree left right result)
  | .removeFree left right result => some (s.ssmemFree right, .removeUnlockLeft left (some result))
  | .removeUnlockLeft left result =>
    some (s.release left, match result with
      | some v => .done (.val v)
      | none => .unchanged (.val 0))
  | .done r => some (s, .done r)
  | .unchanged r => some (s, .unchanged r)

def result : Pc T V → Option (Answer V)
  | .done r => some r
  | .unchanged r => some r
  | _ => none

/-- The list, for clients that keep to keys strictly between the sentinels'
and values other than 0. -/
def program (T K V : Type*) [DecidableEq T] [LinearOrder K] [BoundedOrder K] [Zero V] :
    Program T (Call K V) (Answer V) (LockedHeap T K V) (Pc T V) Unit where
  init := LockedHeap.empty
  pre := Client
  start := start
  step _ t s op l := step t s op l
  result := result

/-- Whenever a `remove` looks at the node it read again from `pred->next`,
that node is not to the left of the key. -/
def FastPath (_ : Trace T (Call K V) (Answer V) (LockedHeap T K V) (Pc T V))
    (c : Config T (Call K V) (LockedHeap T K V) (Pc T V)) (e : Event T (Call K V) (Answer V))
    (_ : Config T (Call K V) (LockedHeap T K V) (Pc T V)) : Prop :=
  ∀ t k pred succ, e = .tau t → c.threads t = some (.remove k, .condEq pred succ) →
    k ≤ c.shared.key succ

/-! ### What holds at each point of a call -/

variable [BoundedOrder K] {t u : T} {S W : Set (LockedHeap T K V)} {s s' : LockedHeap T K V}
  {op : Call K V} {k : K} {p c : Ptr T}

/-- A call of `insert` or `remove`. -/
def Update (op : Call K V) : Prop := ∀ k, op ≠ .search k

/-- A node that was linked since the call, to the left of the key. -/
def LeftOf (W : Set (LockedHeap T K V)) (s : LockedHeap T K V) (k : K) (x : Ptr T) : Prop :=
  Met Lnk W x ∧ s.key x < k

abbrev Walked (W : Set (LockedHeap T K V)) (s : LockedHeap T K V) (k : K) (x : Ptr T) : Prop :=
  (view T K V).Walked W s k x

/-- Thread `t` holds the lock of `x`. -/
def Held (t : T) (S : Set (LockedHeap T K V)) (s : LockedHeap T K V) (x : Ptr T) : Prop :=
  Pub S x ∧ s.lock x = some t

/-- Thread `t` holds the lock of `pred`, to the left of the key, which is
linked or turned back. -/
structure Left (t : T) (S : Set (LockedHeap T K V)) (s : LockedHeap T K V) (k : K) (p : Ptr T) :
    Prop where
  held : Held t S s p
  lt : s.key p < k
  sound : Sound S s p

/-- Thread `t` holds the lock of the linked node `left` to the left of the
key, and `right` follows it and is not to the left of the key. -/
structure Found (t : T) (S : Set (LockedHeap T K V)) (s : LockedHeap T K V) (k : K)
    (p c : Ptr T) : Prop where
  held : Held t S s p
  lnk : Lnk s p
  lt : s.key p < k
  next : s.next p = c
  right : Pub S c
  le : k ≤ s.key c

/-- The assertion at each local state, for thread `t` in call `op`, in a run
through the memories `S` of which `W` since the call. -/
def At (t : T) (S W : Set (LockedHeap T K V)) (s : LockedHeap T K V) (op : Call K V) : Pc T V → Prop
  | .weakRight => ∃ k, op = .search k
  | .weakRightLt succ => (∃ k, op = .search k) ∧ Walked W s op.key succ
  | .weakRightNext succ => (∃ k, op = .search k) ∧ LeftOf W s op.key succ
  | .searchEq right => (∃ k, op = .search k) ∧ Walked W s op.key right ∧ op.key ≤ s.key right
  | .searchVal right => (∃ k, op = .search k) ∧ Met Lnk W right ∧ s.key right = op.key
  | .weakLeft => Update op
  | .weakLeftLt pred succ => Update op ∧ LeftOf W s op.key pred ∧ Walked W s op.key succ
  | .weakLeftNext succ => Update op ∧ LeftOf W s op.key succ
  | .condNext pred => Update op ∧ LeftOf W s op.key pred
  | .condEq pred succ => Update op ∧ LeftOf W s op.key pred ∧ Walked W s op.key succ
  | .strongLock pred => Update op ∧ Pub S pred ∧ s.key pred < op.key
  | .strongNext pred => Update op ∧ Left t S s op.key pred
  | .strongLt pred succ => Update op ∧ Left t S s op.key pred ∧ s.next pred = succ
  | .strongUnlock pred succ => Update op ∧ Left t S s op.key pred ∧ Pub S succ ∧ s.key succ < op.key
  | .rightEq left right => Update op ∧ Found t S s op.key left right
  | .insertNext left => ∃ k v, op = .insert k v ∧ ∃ c, Found t S s k left c ∧ k < s.key c
  | .insertAlloc left next => ∃ k v, op = .insert k v ∧ Found t S s k left next ∧ k < s.key next
  | .insertStore left n => ∃ k v c, op = .insert k v ∧ Found t S s k left c ∧ k < s.key c ∧
      Private t S s k v c n
  | .insertUnlock left result => Held t S s left ∧ Lnk s left ∧ (result = false →
      ∃ s₀ ∈ W, (mapObject K V).apply op (absMap s₀) = (absMap s₀, .flag false))
  | .removeLock left right => ∃ k, op = .remove k ∧ Found t S s k left right ∧ s.key right = k
  | .removeVal left right => ∃ k, op = .remove k ∧ Found t S s k left right ∧ s.key right = k ∧
      Held t S s right
  | .removeNext left right result => ∃ k, op = .remove k ∧ Found t S s k left right ∧
      s.key right = k ∧ Held t S s right ∧ s.val right = result
  | .removeStore left right next result => ∃ k, op = .remove k ∧ Found t S s k left right ∧
      s.key right = k ∧ Held t S s right ∧ s.val right = result ∧ s.next right = next
  | .removeBack left right _ => Held t S s left ∧ Lnk s left ∧ Held t S s right ∧ ¬ Lnk s right ∧
      s.key left < s.key right
  | .removeUnlockRight left right _ => Held t S s left ∧ Lnk s left ∧ Held t S s right ∧
      Sound S s right ∧ left ≠ right
  | .removeFree left _ _ => Held t S s left ∧ Lnk s left
  | .removeUnlockLeft left result => Held t S s left ∧ Lnk s left ∧ (result = none →
      ∃ s₀ ∈ W, (mapObject K V).apply op (absMap s₀) = (absMap s₀, .val 0))
  | .done _ => True
  | .unchanged r => ∃ s₀ ∈ W, (mapObject K V).apply op (absMap s₀) = (absMap s₀, r)

section stable

variable (hk : Keeps t S s s')

include hk

theorem LeftOf.step {x : Ptr T} (h : LeftOf W s k x) (hW : W ⊆ S) :
    LeftOf (insert s' W) s' k x :=
  ⟨h.1.insert s', by rw [hk.key x (h.1.mono hW)]; exact h.2⟩

theorem walked_step {x : Ptr T} (h : Walked W s k x) (hW : W ⊆ S) : Walked (insert s' W) s' k x :=
  NodeView.Walked.step h (hk.key x (h.1.mono hW))

variable (hu : u ≠ t)

include hu

theorem Held.mem_eq {x : Ptr T} (h : Held u S s x) : s'.mem x = s.mem x :=
  (hk.locked u hu x h.1 h.2).1

theorem Held.lnk_iff {x : Ptr T} (h : Held u S s x) : Lnk s' x ↔ Lnk s x :=
  (hk.locked u hu x h.1 h.2).2

theorem Held.step {x : Ptr T} (h : Held u S s x) : Held u (insert s' S) s' x :=
  ⟨h.1.insert s', (congrArg LlLocked.lock (h.mem_eq hk hu)).trans h.2⟩

theorem Held.next_eq {x : Ptr T} (h : Held u S s x) : s'.next x = s.next x :=
  congrArg LlLocked.next (h.mem_eq hk hu)

theorem Held.sound {x : Ptr T} (h : Held u S s x) (hs : Sound S s x) : Sound (insert s' S) s' x := by
  rcases hs with hl | ⟨h1, h2⟩
  · exact Or.inl ((h.lnk_iff hk hu).mpr hl)
  · refine Or.inr ⟨?_, ?_⟩
    · rw [h.next_eq hk hu]
      exact h1.insert s'
    · rw [h.next_eq hk hu, hk.key _ h1, hk.key x h.1]
      exact h2

theorem Left.step (h : Left u S s k p) : Left u (insert s' S) s' k p :=
  ⟨h.held.step hk hu, by rw [hk.key p h.held.1]; exact h.lt, h.held.sound hk hu h.sound⟩

theorem Found.step (h : Found u S s k p c) : Found u (insert s' S) s' k p c where
  held := h.held.step hk hu
  lnk := (h.held.lnk_iff hk hu).mpr h.lnk
  lt := by rw [hk.key p h.held.1]; exact h.lt
  next := (h.held.next_eq hk hu).trans h.next
  right := h.right.insert s'
  le := by rw [hk.key c h.right]; exact h.le

end stable

/-- A step of another thread keeps the assertion. -/
theorem At.step {l : Pc T V} (h : At u S W s op l) (hW : W ⊆ S) (hu : u ≠ t) (hk : Keeps t S s s') :
    At u (insert s' S) (insert s' W) s' op l := by
  have hpast : ∀ {r}, (∃ s₀ ∈ W, (mapObject K V).apply op (absMap s₀) = (absMap s₀, r)) →
      ∃ s₀ ∈ insert s' W, (mapObject K V).apply op (absMap s₀) = (absMap s₀, r) := by
    rintro r ⟨s₀, hs₀, h0⟩
    exact ⟨s₀, Set.mem_insert_of_mem _ hs₀, h0⟩
  cases l with
  | weakRight | weakLeft => exact h
  | weakRightLt c => exact ⟨h.1, walked_step hk h.2 hW⟩
  | weakRightNext c | weakLeftNext c | condNext c => exact ⟨h.1, h.2.step hk hW⟩
  | searchEq c =>
    obtain ⟨h1, h2, h3⟩ := h
    exact ⟨h1, walked_step hk h2 hW, by rw [hk.key c (h2.1.mono hW)]; exact h3⟩
  | searchVal c =>
    obtain ⟨h1, h2, h3⟩ := h
    exact ⟨h1, h2.insert s', by rw [hk.key c (h2.mono hW)]; exact h3⟩
  | weakLeftLt p c | condEq p c => exact ⟨h.1, h.2.1.step hk hW, walked_step hk h.2.2 hW⟩
  | strongLock p =>
    obtain ⟨h1, h2, h3⟩ := h
    exact ⟨h1, h2.insert s', by rw [hk.key p h2]; exact h3⟩
  | strongNext p => exact ⟨h.1, h.2.step hk hu⟩
  | strongLt p c => exact ⟨h.1, h.2.1.step hk hu, (h.2.1.held.next_eq hk hu).trans h.2.2⟩
  | strongUnlock p c =>
    obtain ⟨h1, h2, h3, h4⟩ := h
    exact ⟨h1, h2.step hk hu, h3.insert s', by rw [hk.key c h3]; exact h4⟩
  | rightEq p c => exact ⟨h.1, h.2.step hk hu⟩
  | insertNext p =>
    obtain ⟨k, v, h1, c, h2, h3⟩ := h
    exact ⟨k, v, h1, c, h2.step hk hu, by rw [hk.key c h2.right]; exact h3⟩
  | insertAlloc p c =>
    obtain ⟨k, v, h1, h2, h3⟩ := h
    exact ⟨k, v, h1, h2.step hk hu, by rw [hk.key c h2.right]; exact h3⟩
  | insertStore p n =>
    obtain ⟨k, v, c, h1, h2, h3, h4⟩ := h
    exact ⟨k, v, c, h1, h2.step hk hu, by rw [hk.key c h2.right]; exact h3,
      NodeView.Private.step h4 hu hk.others⟩
  | insertUnlock p r =>
    exact ⟨h.1.step hk hu, (h.1.lnk_iff hk hu).mpr h.2.1, fun hr => hpast (h.2.2 hr)⟩
  | removeLock p c =>
    obtain ⟨k, h1, h2, h3⟩ := h
    exact ⟨k, h1, h2.step hk hu, by rw [hk.key c h2.right]; exact h3⟩
  | removeVal p c =>
    obtain ⟨k, h1, h2, h3, h4⟩ := h
    exact ⟨k, h1, h2.step hk hu, by rw [hk.key c h2.right]; exact h3, h4.step hk hu⟩
  | removeNext p c r =>
    obtain ⟨k, h1, h2, h3, h4, h5⟩ := h
    exact ⟨k, h1, h2.step hk hu, by rw [hk.key c h2.right]; exact h3, h4.step hk hu,
      by rw [hk.val c h2.right]; exact h5⟩
  | removeStore p c n r =>
    obtain ⟨k, h1, h2, h3, h4, h5, h6⟩ := h
    exact ⟨k, h1, h2.step hk hu, by rw [hk.key c h2.right]; exact h3, h4.step hk hu,
      by rw [hk.val c h2.right]; exact h5, (h4.next_eq hk hu).trans h6⟩
  | removeBack p c r =>
    obtain ⟨h1, h2, h3, h4, h5⟩ := h
    exact ⟨h1.step hk hu, (h1.lnk_iff hk hu).mpr h2, h3.step hk hu, fun hl =>
      h4 ((h3.lnk_iff hk hu).mp hl), by rw [hk.key p h1.1, hk.key c h3.1]; exact h5⟩
  | removeUnlockRight p c r =>
    obtain ⟨h1, h2, h3, h4, h5⟩ := h
    exact ⟨h1.step hk hu, (h1.lnk_iff hk hu).mpr h2, h3.step hk hu, h3.sound hk hu h4, h5⟩
  | removeFree p c r => exact ⟨h.1.step hk hu, (h.1.lnk_iff hk hu).mpr h.2⟩
  | removeUnlockLeft p r =>
    exact ⟨h.1.step hk hu, (h.1.lnk_iff hk hu).mpr h.2.1, fun hr => hpast (h.2.2 hr)⟩
  | done r => trivial
  | unchanged r => exact hpast h

/-! ### The steps -/

/-- The result of a call that has taken effect. -/
def lin (_ : LockedHeap T K V) : Call K V → Pc T V → Option (Answer V)
  | _, .insertUnlock _ true => some (.flag true)
  | _, .removeBack _ _ result => some (.val result)
  | _, .removeUnlockRight _ _ result => some (.val result)
  | _, .removeFree _ _ result => some (.val result)
  | _, .removeUnlockLeft _ (some result) => some (.val result)
  | _, .done r => some r
  | _, _ => none

/-- What a step does: it is one of the writes, it establishes the next
assertion, and it changes the map only where the call takes effect. -/
structure StepOk (t : T) (S W : Set (LockedHeap T K V)) (s : LockedHeap T K V) (op : Call K V)
    (l : Pc T V) (s' : LockedHeap T K V) (l' : Pc T V) : Prop where
  act : Act t S s s'
  next : At t (insert s' S) (insert s' W) s' op l'
  point : (lin s' op l' = lin s op l ∧ absMap s' = absMap s) ∨ (lin s op l = none ∧ ∃ r,
    lin s' op l' = some r ∧ (mapObject K V).apply op (absMap s) = (absMap s', r))

section step

variable (w : Wf S s)

include w

/-- Taking a free lock. -/
theorem acquire_ok {x : Ptr T} (hx : Pub S x) (h : s.acquire t x = some s') :
    Act t S s s' ∧ Held t (insert s' S) s' x ∧ Sound (insert s' S) s' x ∧ absMap s' = absMap s ∧
      ∀ y c, Found t S s k y c → Found t (insert s' S) s' k y c := by
  obtain ⟨hl, rfl⟩ := LockedHeap.acquire_eq_some h
  have hact : Act t S s (s.modify x fun n => { n with lock := some t }) := .acquire hx hl
  have hk := hact.keeps w
  have hx' : LockedHeap.lock (s.modify x fun n => { n with lock := some t }) x = some t := by
    simp [LockedHeap.lock]
  have hnext : ∀ y, LockedHeap.next (s.modify x fun n => { n with lock := some t }) y = s.next y :=
    fun y => s.field_modify x y LlLocked.next fun _ => rfl
  refine ⟨hact, ⟨hx.insert _, hx'⟩, lock_sound w x _ (w.sound x hx hl), lock_absMap w x _,
    fun y c hf => ⟨⟨hf.held.1.insert _, ?_⟩, (lock_lnk w x y _).mpr hf.lnk, ?_, ?_, hf.right.insert _,
      ?_⟩⟩
  · by_cases hyx : y = x
    · rw [hyx]; exact hx'
    · exact (congrArg LlLocked.lock (s.mem_modify_of_ne x y _ hyx)).trans hf.held.2
  · rw [hk.key y hf.held.1]; exact hf.lt
  · exact (hnext y).trans hf.next
  · rw [hk.key c hf.right]; exact hf.le

/-- Giving a lock back. -/
theorem release_ok {x : Ptr T} (hx : Held t S s x) (h : Sound S s x) :
    Act t S s (s.release x) ∧ absMap (s.release x) = absMap s :=
  ⟨.release hx.1 hx.2 h, lock_absMap w x none⟩

/-- A step that only reads. -/
theorem StepOk.read {l l' : Pc T V} (hs : s ∈ W) (h : At t S W s op l')
    (hl : lin s op l' = lin s op l) : StepOk t S W s op l s l' := by
  refine ⟨.skip, ?_, Or.inl ⟨hl, rfl⟩⟩
  rw [Set.insert_eq_of_mem w.listed.mem, Set.insert_eq_of_mem hs]
  exact h

theorem head_lt (hb : ⊥ < k) : s.key .head < k := by
  rw [show s.key .head = ⊥ from w.listed.head_key]; exact hb

/-- A node with the key was present when it was linked. -/
theorem present {x : Ptr T} (hW : W ⊆ S) (hb : ⊥ < k) (ht : k < ⊤) (hx : Met Lnk W x)
    (hk : s.key x = k) : (view T K V).SomeSeen W k (s.val x) := by
  have hxh := w.listed.ne_head_of_lt (x := x) (k := ⊥) (by rw [← hk] at hb; exact hb)
  have hxt := w.listed.ne_tail_of_lt (x := x) (k := ⊤) (by rw [← hk] at ht; exact ht)
  obtain ⟨s₀, hs₀, hl⟩ := hx
  exact ⟨s₀, hs₀, hk ▸ w.listed.absMap_past (hW hs₀) ⟨hl, id, hxh, hxt⟩⟩

variable (hs : s ∈ W) (hW : W ⊆ S) (hh : Hind W s) (hb : ⊥ < op.key) (ht : op.key < ⊤)
  {l l' : Pc T V} (h : At t S W s op l) (hstep : step t s op l = some (s', l'))

include hs hW hh hb ht h hstep

theorem step_ok_search (hl : l = .weakRight ∨ (∃ c, l = .weakRightLt c) ∨
      (∃ c, l = .weakRightNext c) ∨ (∃ c, l = .searchEq c) ∨ ∃ c, l = .searchVal c) :
    StepOk t S W s op l s' l' := by
  rcases hl with rfl | ⟨c, rfl⟩ | ⟨c, rfl⟩ | ⟨c, rfl⟩ | ⟨c, rfl⟩ <;> cases hstep
  · exact .read w hs ⟨h, w.listed.walked_first hs hb⟩ rfl
  · obtain ⟨h1, h2⟩ := h
    split_ifs with hlt
    · exact .read w hs ⟨h1, h2.1, hlt⟩ rfl
    · exact .read w hs ⟨h1, h2, not_lt.mp hlt⟩ rfl
  · obtain ⟨h1, h2, h3⟩ := h
    exact .read w hs ⟨h1, LockedList.walked_next w hW hh h2 h3⟩ rfl
  · obtain ⟨h1, h2, h3⟩ := h
    split_ifs with he
    · exact .read w hs ⟨h1, h2.1, he⟩ rfl
    · obtain ⟨s₀, hs₀, h0⟩ := h2.2.resolve_left fun hle => he (le_antisymm hle h3)
      obtain ⟨k, rfl⟩ := h1
      exact .read w hs ⟨s₀, hs₀, apply_search_none h0⟩ rfl
  · obtain ⟨⟨k, rfl⟩, h2, h3⟩ := h
    obtain ⟨s₀, hs₀, h0⟩ := present w hW hb ht h2 h3
    exact .read w hs ⟨s₀, hs₀, apply_search_some h0⟩ rfl

theorem step_ok_weak (hl : l = .weakLeft ∨ (∃ p c, l = .weakLeftLt p c) ∨
      (∃ c, l = .weakLeftNext c) ∨ ∃ p, l = .condNext p) : StepOk t S W s op l s' l' := by
  rcases hl with rfl | ⟨p, c, rfl⟩ | ⟨c, rfl⟩ | ⟨p, rfl⟩ <;> cases hstep
  · exact .read w hs ⟨h, ⟨⟨s, hs, linked_head⟩, head_lt w hb⟩, w.listed.walked_first hs hb⟩ rfl
  · obtain ⟨h1, h2, h3⟩ := h
    split_ifs with hlt
    · exact .read w hs ⟨h1, h3.1, hlt⟩ rfl
    · exact .read w hs ⟨h1, h2⟩ rfl
  · obtain ⟨h1, h2, h3⟩ := h
    exact .read w hs ⟨h1, ⟨h2, h3⟩, LockedList.walked_next w hW hh h2 h3⟩ rfl
  · obtain ⟨h1, h2, h3⟩ := h
    exact .read w hs ⟨h1, ⟨h2, h3⟩, LockedList.walked_next w hW hh h2 h3⟩ rfl

/-- The way out without a lock. A `remove` takes it rightly where the node it
read again is not to the left of the key. -/
theorem step_ok_cond (hl : l = .condEq p c) (hfast : ∀ k, op = .remove k → k ≤ s.key c) :
    StepOk t S W s op l s' l' := by
  subst hl
  cases hstep
  obtain ⟨h1, h2, h3⟩ := h
  split_ifs with he
  · refine .read w hs ?_ rfl
    rcases op with k | ⟨k, v⟩ | k
    · exact absurd rfl (h1 k)
    · obtain ⟨s₀, hs₀, h0⟩ := present w hW hb ht h3.1 (of_decide_eq_true he)
      exact ⟨s₀, hs₀, apply_insert_some h0⟩
    · have hne : s.key c ≠ k := of_decide_eq_false he
      obtain ⟨s₀, hs₀, h0⟩ := h3.2.resolve_left fun hle => hne (le_antisymm hle (hfast k rfl))
      exact ⟨s₀, hs₀, apply_remove_none h0⟩
  · exact .read w hs ⟨h1, h2.1.mono hW, h2.2⟩ rfl

theorem step_ok_strong (hl : (∃ p, l = .strongLock p) ∨ (∃ p, l = .strongNext p) ∨
      (∃ p c, l = .strongLt p c) ∨ (∃ p c, l = .strongUnlock p c) ∨ ∃ p c, l = .rightEq p c) :
    StepOk t S W s op l s' l' := by
  rcases hl with ⟨p, rfl⟩ | ⟨p, rfl⟩ | ⟨p, c, rfl⟩ | ⟨p, c, rfl⟩ | ⟨p, c, rfl⟩
  · obtain ⟨h1, h2, h3⟩ := h
    obtain ⟨s', ha, he⟩ := Option.map_eq_some_iff.mp hstep
    cases he
    obtain ⟨hact, hheld, hsound, habs, -⟩ := acquire_ok (k := op.key) w h2 ha
    exact ⟨hact, ⟨h1, hheld, by rw [(hact.keeps w).key p h2]; exact h3, hsound⟩, Or.inl ⟨rfl, habs⟩⟩
  · cases hstep
    exact .read w hs ⟨h.1, h.2, rfl⟩ rfl
  · cases hstep
    obtain ⟨h1, h2, rfl⟩ := h
    have hpub : Pub S (s.next p) := by
      rcases h2.sound with hl | hl
      · exact w.listed.pub_lnk (hl.next (w.listed.ne_tail_of_lt h2.lt))
      · exact hl.1
    split_ifs with hlt
    · exact .read w hs ⟨h1, h2, hpub, hlt⟩ rfl
    · have hle : op.key ≤ s.key (s.next p) := not_lt.mp hlt
      -- a pointer that was turned back leads to the left
      have hl : Lnk s p := h2.sound.resolve_right fun hb => absurd (hb.2.trans h2.lt) hlt
      exact .read w hs ⟨h1, h2.held, hl, h2.lt, rfl, hpub, hle⟩ rfl
  · cases hstep
    obtain ⟨h1, h2, h3, h4⟩ := h
    obtain ⟨hact, habs⟩ := release_ok w h2.held h2.sound
    exact ⟨hact, ⟨h1, h3.insert _, by rw [(hact.keeps w).key c h3]; exact h4⟩, Or.inl ⟨rfl, habs⟩⟩
  · cases hstep
    obtain ⟨h1, h2⟩ := h
    rcases op with k | ⟨k, v⟩ | k
    · exact absurd rfl (h1 k)
    · by_cases he : s.key c = k
      · have hc : Met Lnk W c := ⟨s, hs, h2.next ▸ h2.lnk.next (w.listed.ne_tail_of_lt h2.lt)⟩
        obtain ⟨s₀, hs₀, h0⟩ := present w hW hb ht hc he
        rw [show decide (s.key c = Call.key (.insert k v)) = true from decide_eq_true he]
        exact .read w hs ⟨h2.held, h2.lnk, fun _ => ⟨s₀, hs₀, apply_insert_some h0⟩⟩ rfl
      · rw [show decide (s.key c = Call.key (.insert k v)) = false from decide_eq_false he]
        exact .read w hs ⟨k, v, rfl, c, h2, lt_of_le_of_ne h2.le (Ne.symm he)⟩ rfl
    · by_cases he : s.key c = k
      · rw [show decide (s.key c = Call.key (.remove k : Call K V)) = true from decide_eq_true he]
        exact .read w hs ⟨k, rfl, h2, he⟩ rfl
      · rw [show decide (s.key c = Call.key (.remove k : Call K V)) = false from decide_eq_false he]
        refine .read w hs ⟨h2.held, h2.lnk, fun _ => ?_⟩ rfl
        obtain ⟨s₀, hs₀, h0⟩ := w.listed.noneSeen_of_next hW hs h2.lnk h2.lt
          (show k < s.key (s.next p) by rw [h2.next]; exact lt_of_le_of_ne h2.le (Ne.symm he))
        exact ⟨s₀, hs₀, apply_remove_none h0⟩

theorem step_ok_insert (hl : (∃ p, l = .insertNext p) ∨ (∃ p c, l = .insertAlloc p c) ∨
      (∃ p n, l = .insertStore p n) ∨ ∃ p r, l = .insertUnlock p r) :
    StepOk t S W s op l s' l' := by
  rcases hl with ⟨p, rfl⟩ | ⟨p, c, rfl⟩ | ⟨p, n, rfl⟩ | ⟨p, r, rfl⟩
  · cases hstep
    obtain ⟨k, v, rfl, c, h2, h3⟩ := h
    obtain rfl := h2.next
    exact .read w hs ⟨k, v, rfl, h2, h3⟩ rfl
  · obtain ⟨k, v, rfl, h2, h3⟩ := h
    cases hstep
    obtain ⟨hsame, hm, hp⟩ := w.listed.allocate t ⟨k, v, c, none⟩
    have hact : Act t S s (s.allocateLlLocked t k v c).1 := .alloc k v c
    have hk := hact.keeps w
    have hmp := hm p h2.held.1
    have hlt : k < LockedHeap.key (s.allocateLlLocked t k v c).1 c :=
      h3.trans_eq (hk.key c h2.right).symm
    refine ⟨hact, ⟨k, v, c, rfl, ⟨⟨h2.held.1.insert _, ?_⟩, (hsame.lnk w.listed p).mpr h2.lnk, ?_, ?_,
      h2.right.insert _, hlt.le⟩, hlt, hp⟩, Or.inl ⟨rfl, hsame.absMap w.listed fun _ _ => Iff.rfl⟩⟩
    · exact (congrArg LlLocked.lock hmp).trans h2.held.2
    · exact (hk.key p h2.held.1).trans_lt h2.lt
    · exact (congrArg LlLocked.next hmp).trans h2.next
  · obtain ⟨k, v, c, rfl, h2, h3, h4⟩ := h
    cases hstep
    obtain rfl := h2.next
    obtain ⟨hn, habs⟩ := link_absMap w h2.lnk h4 h2.lt h3
    refine ⟨.link h2.held.2 h2.lnk h4 h2.lt h3, ⟨⟨h2.held.1.insert _, ?_⟩,
      (link_lnk w h2.lnk h4 h2.lt h3 p).mpr (Or.inl h2.lnk), nofun⟩, Or.inr ⟨rfl, _, rfl, ?_⟩⟩
    · rw [LockedHeap.lock_setNext]; exact h2.held.2
    · rw [apply_insert_none hn, ← habs]
  · cases hstep
    obtain ⟨h1, h2, h3⟩ := h
    obtain ⟨hact, habs⟩ := release_ok w h1 (Or.inl h2)
    cases r
    · obtain ⟨s₀, hs₀, h0⟩ := h3 rfl
      exact ⟨hact, ⟨s₀, Set.mem_insert_of_mem _ hs₀, h0⟩, Or.inl ⟨rfl, habs⟩⟩
    · exact ⟨hact, trivial, Or.inl ⟨rfl, habs⟩⟩

theorem step_ok_remove (hl : (∃ p c, l = .removeLock p c) ∨ (∃ p c, l = .removeVal p c) ∨
      (∃ p c r, l = .removeNext p c r) ∨ ∃ p c n r, l = .removeStore p c n r) :
    StepOk t S W s op l s' l' := by
  rcases hl with ⟨p, c, rfl⟩ | ⟨p, c, rfl⟩ | ⟨p, c, r, rfl⟩ | ⟨p, c, n, r, rfl⟩
  · obtain ⟨k, rfl, h2, h3⟩ := h
    obtain ⟨s', ha, he⟩ := Option.map_eq_some_iff.mp hstep
    cases he
    obtain ⟨hact, hheld, -, habs, hfound⟩ := acquire_ok w h2.right ha
    exact ⟨hact, ⟨k, rfl, hfound p c h2, by rw [(hact.keeps w).key c h2.right]; exact h3, hheld⟩,
      Or.inl ⟨rfl, habs⟩⟩
  · cases hstep
    obtain ⟨k, rfl, h2, h3, h4⟩ := h
    exact .read w hs ⟨k, rfl, h2, h3, h4, rfl⟩ rfl
  · cases hstep
    obtain ⟨k, rfl, h2, h3, h4, h5⟩ := h
    exact .read w hs ⟨k, rfl, h2, h3, h4, h5, rfl⟩ rfl
  · cases hstep
    obtain ⟨k, rfl, h2, rfl, h4, rfl, rfl⟩ := h
    have hpt := w.listed.ne_tail_of_lt h2.lt
    have hch : c ≠ .head := w.listed.ne_head_of_lt hb
    have hct : c ≠ .tail := w.listed.ne_tail_of_lt ht
    obtain ⟨hv, habs⟩ := unlink_absMap w h2.lnk h2.next hpt hct hch
    have hlnk := unlink_lnk w h2.lnk h2.next hpt hct
    refine ⟨.unlink h2.held.2 h4.2 h2.lnk h2.next hpt hct, ⟨⟨h2.held.1.insert _, ?_⟩,
      (hlnk p).mpr ⟨h2.lnk, unlink_ne w h2.lnk h2.next hpt hct⟩, ⟨h4.1.insert _, ?_⟩,
      fun hl => ((hlnk c).mp hl).2 rfl, ?_⟩, Or.inr ⟨rfl, _, rfl, ?_⟩⟩
    · rw [LockedHeap.lock_setNext]; exact h2.held.2
    · rw [LockedHeap.lock_setNext]; exact h4.2
    · rw [LockedHeap.key_setNext, LockedHeap.key_setNext]; exact h2.lt
    · rw [apply_remove_some hv, ← habs]

theorem step_ok_removed (hl : (∃ p c r, l = .removeBack p c r) ∨
      (∃ p c r, l = .removeUnlockRight p c r) ∨ (∃ p c r, l = .removeFree p c r) ∨
      ∃ p r, l = .removeUnlockLeft p r) : StepOk t S W s op l s' l' := by
  rcases hl with ⟨p, c, r, rfl⟩ | ⟨p, c, r, rfl⟩ | ⟨p, c, r, rfl⟩ | ⟨p, r, rfl⟩ <;> cases hstep
  · obtain ⟨h1, h2, h3, h4, h5⟩ := h
    have hsame := back_same (S := S) h4 p
    refine ⟨.back h3.2 h3.1 h4 h2 h5, ⟨⟨h1.1.insert _, ?_⟩, (hsame.lnk w.listed p).mpr h2,
      ⟨h3.1.insert _, ?_⟩, Or.inr ⟨?_, ?_⟩, ?_⟩, Or.inl ⟨rfl, hsame.absMap w.listed fun _ _ => Iff.rfl⟩⟩
    · rw [LockedHeap.lock_setNext]; exact h1.2
    · rw [LockedHeap.lock_setNext]; exact h3.2
    · rw [LockedHeap.next_setNext_self]; exact h1.1.insert _
    · rw [LockedHeap.next_setNext_self, LockedHeap.key_setNext, LockedHeap.key_setNext]; exact h5
    · rintro rfl
      exact lt_irrefl _ h5
  · obtain ⟨h1, h2, h3, h4, h5⟩ := h
    obtain ⟨hact, habs⟩ := release_ok w h3 h4
    refine ⟨hact, ⟨⟨h1.1.insert _, ?_⟩, (lock_lnk w c p none).mpr h2⟩, Or.inl ⟨rfl, habs⟩⟩
    exact (congrArg LlLocked.lock (s.mem_modify_of_ne c p _ h5)).trans h1.2
  · obtain ⟨h1, h2⟩ := h
    exact ⟨.free c, ⟨⟨h1.1.insert _, h1.2⟩, h2, nofun⟩, Or.inl ⟨rfl, rfl⟩⟩
  · obtain ⟨h1, h2, h3⟩ := h
    obtain ⟨hact, habs⟩ := release_ok w h1 (Or.inl h2)
    rcases r with _ | v
    · obtain ⟨s₀, hs₀, h0⟩ := h3 rfl
      exact ⟨hact, ⟨s₀, Set.mem_insert_of_mem _ hs₀, h0⟩, Or.inl ⟨rfl, habs⟩⟩
    · exact ⟨hact, trivial, Or.inl ⟨rfl, habs⟩⟩

/-- **Every step is one of the writes, and leads to the next assertion.** -/
theorem step_ok (hr : result l = none)
    (hfast : ∀ k p c, op = .remove k → l = .condEq p c → k ≤ s.key c) :
    StepOk t S W s op l s' l' := by
  cases l
  case weakRight | weakRightLt | weakRightNext | searchEq | searchVal =>
    exact step_ok_search w hs hW hh hb ht h hstep (by simp)
  case weakLeft | weakLeftLt | weakLeftNext | condNext =>
    exact step_ok_weak w hs hW hh hb ht h hstep (by simp)
  case condEq p c => exact step_ok_cond w hs hW hh hb ht h hstep rfl fun k hk => hfast k p c hk rfl
  case strongLock | strongNext | strongLt | strongUnlock | rightEq =>
    exact step_ok_strong w hs hW hh hb ht h hstep (by simp)
  case insertNext | insertAlloc | insertStore | insertUnlock =>
    exact step_ok_insert w hs hW hh hb ht h hstep (by simp)
  case removeLock | removeVal | removeNext | removeStore =>
    exact step_ok_remove w hs hW hh hb ht h hstep (by simp)
  case removeBack | removeUnlockRight | removeFree | removeUnlockLeft =>
    exact step_ok_removed w hs hW hh hb ht h hstep (by simp)
  case done => cases hr
  case unchanged => cases hr

end step

/-! ### Runs -/

theorem start_at (op : Call K V) : At t S {s} s op (start op) := by
  rcases op with k | ⟨k, v⟩ | k
  · exact ⟨k, rfl⟩
  · exact nofun
  · exact nofun

variable [Nontrivial K]

/-- The proof outline. -/
def outline : Outline (program T K V) FastPath (fun _ _ => False) where
  glob es s := Wf ((program T K V).seen es) s
  loc t W₀ W s op l := W ⊆ W₀ ∧ Hind W s ∧ Client op ∧ At t W₀ W s op l
  pair _ _ := True
  pair_symm := id
  init := Wf.initial
  frame := by
    intro es s e th hw _
    rw [Program.seen, Set.insert_eq_of_mem hw.listed.mem]
    exact hw
  call t hw hs hp := ⟨Set.singleton_subset_iff.mpr hs, .singleton _, hp, start_at _⟩
  call_pair := trivial
  tau := by
    intro es c t op l i s' l' hr ht hres hstep hok hw ⟨hW, hh, hc, hat⟩
    have hok := step_ok hw (hr.shared_mem_window _ ht) hW hh hc.1 hc.2.1 hat hstep hres
      fun k p q hop hl => hok t k p q rfl (by rw [ht, hop, hl])
    have hk := hok.act.keeps hw
    rw [extend_of_not id]
    exact ⟨hok.act.wf hw, ⟨Set.insert_subset_insert hW, hok.act.hindsight hw hW hh, hc, hok.next⟩,
      fun u op₁ l₁ hu _ ⟨hW₁, hh₁, hc₁, hat₁⟩ _ => ⟨⟨Set.insert_subset_insert hW₁,
        hok.act.hindsight hw hW₁ hh₁, hc₁, hat₁.step hW₁ hu hk⟩, trivial⟩⟩

/-- **The list is linearizable to the map of its linked nodes** in the runs in
which no `remove` reads, on its way out without a lock, a node to the left of
its key. -/
theorem pugh_list_linearizable [Fintype T] :
    LinearizableIf (mapObject K V) (program T K V) FastPath absMap :=
  Concur.linearizable <| outline.points lin empty_absMap (fun s op => by cases op <;> rfl)
    (fun {es c t op l i s' l'} hr hh ht hres hstep hok => by
      obtain ⟨hW, hi, hc, hat⟩ := hh.loc t op l ht
      exact ⟨(step_ok hh.glob (hr.shared_mem_window _ ht) hW hi hc.1 hc.2.1 hat hstep hres
        fun k p q hop hl => hok t k p q rfl (by rw [ht, hop, hl])).point, fun _ _ _ _ _ => rfl⟩)
    fun {es c t op l r} hr hh ht hres => by
      have hat := (hh.loc t op l ht).2.2.2
      cases l <;> cases hres
      · exact Or.inl rfl
      · exact Or.inr ⟨rfl, hat⟩

/-- Three threads, and keys 1 to 8. -/
theorem pugh_list_linearizable_three :
    LinearizableIf (mapObject (Fin 10) ℕ) (program (Fin 3) (Fin 10) ℕ) FastPath absMap :=
  pugh_list_linearizable

/-! ### A lost remove -/

/-- Thread 0 inserts 10; its `remove(10)` walks to the head, in front of the
node; thread 1 inserts 5 between them; thread 0 reads `head->next` again. -/
def lostRemove : List (Move (Fin 2) (Call (Fin 12) ℕ) Unit) :=
  [.call 0 (.insert 10 7)] ++ List.replicate 12 (.tau 0 ()) ++ [.ret 0] ++
  [.call 0 (.remove 10)] ++ List.replicate 2 (.tau 0 ()) ++
  [.call 1 (.insert 5 1)] ++ List.replicate 12 (.tau 1 ()) ++ [.ret 1] ++
  List.replicate 2 (.tau 0 ()) ++ [.ret 0]

/-- What happens after thread 0 has called `remove(10)`, newest first. -/
def lostRemoveAfter : List (Event (Fin 2) (Call (Fin 12) ℕ) (Answer ℕ)) :=
  List.replicate 2 (.tau 0) ++ [.ret 1 (.insert 5 1) (.flag true)] ++ List.replicate 12 (.tau 1) ++
  [.call 1 (.insert 5 1)] ++ List.replicate 2 (.tau 0)

/-- What happened before. -/
def lostRemoveBefore : List (Event (Fin 2) (Call (Fin 12) ℕ) (Answer ℕ)) :=
  [.ret 0 (.insert 10 7) (.flag true)] ++ List.replicate 12 (.tau 0) ++ [.call 0 (.insert 10 7)]

theorem lostRemove_events :
    ((program (Fin 2) (Fin 12) ℕ).play ([], (program (Fin 2) (Fin 12) ℕ).initial) lostRemove).map
      (fun q => q.1.map Prod.fst) =
    some (.ret 0 (.remove 10) (.val 0) :: (lostRemoveAfter ++ .call 0 (.remove 10) ::
      lostRemoveBefore)) := by
  decide +kernel

/-- **A `remove` can return 0 while the key is in the list.** In the run of
`lostRemove`, 10 is inserted before `remove(10)` is called and nobody else
removes it: no order of the calls explains the 0. -/
theorem pugh_list_not_linearizable :
    ¬ HistoriesLinearizable (mapObject (Fin 12) ℕ) (program (Fin 2) (Fin 12) ℕ) := by
  refine not_linearizable_of_play lostRemove_events ?_ ?_ ?_ ?_ ?_
  · intro t op h
    simp only [lostRemove, List.mem_append, List.mem_cons, List.mem_replicate, List.not_mem_nil,
      or_false, reduceCtorEq, and_false, Move.call.injEq] at h
    rcases h with (⟨-, rfl⟩ | ⟨-, rfl⟩) | ⟨-, rfl⟩
    · exact ⟨by decide, by decide, fun k v h => by cases h; decide⟩
    · exact ⟨by decide, by decide, fun k v h => by cases h⟩
    · exact ⟨by decide, by decide, fun k v h => by cases h; decide⟩
  · intro u v h
    simp [lostRemoveAfter, lostRemoveBefore] at h
    rw [h.2]
    decide
  · intro u h
    simp [lostRemoveAfter, lostRemoveBefore] at h
  · intro op r h
    simp [lostRemoveAfter] at h
  · exact ⟨0, .insert 10 7, .flag true, by simp [lostRemoveBefore], rfl⟩

end LinkedListPugh

end Ascylib
