/-
# The OPTIK list

`src/algorithms/linkedlist_optik.h` with integer words, one local state for
each access to shared memory. A traversal reads the word of a node before its
`next` pointer; `insert` then takes the lock of the predecessor with the
version it read, and `remove` those of the predecessor and of the node, giving
the first one back as it was when it cannot get the second. The lock of a
removed node is never given back.
-/
import Ascylib.OptikList

set_option linter.unusedSectionVars false

namespace Ascylib

open Concur Chain

namespace LinkedListOptik

open OptikList

variable {T K V : Type*} [DecidableEq T] [LinearOrder K]

/-- Where a call is, with the local variables that are live there. -/
inductive Pc (T V : Type*) where
  /-- `search`: `curr->key < key` -/
  | searchLt (curr : Ptr T)
  /-- `curr = curr->next` -/
  | searchNext (curr : Ptr T)
  /-- `curr->key == key` -/
  | searchEq (curr : Ptr T)
  /-- `res = curr->val` -/
  | searchVal (curr : Ptr T)
  /-- `insert`: `curr_ver = curr->lock; pred = curr; pred_ver = curr_ver` -/
  | insertLock (curr : Ptr T)
  /-- `curr = curr->next` -/
  | insertNext (pred : Ptr T) (predVer : OptikT)
  /-- `curr->key < key` -/
  | insertLt (pred : Ptr T) (predVer : OptikT) (curr : Ptr T)
  /-- `curr->key == key` -/
  | insertEq (pred : Ptr T) (predVer : OptikT) (curr : Ptr T)
  /-- `newnode = allocate_ll_optik(key, val, curr)` -/
  | insertAlloc (pred : Ptr T) (predVer : OptikT) (curr : Ptr T)
  /-- `optik_trylock_version(&pred->lock, pred_ver)`: the test -/
  | insertTry (pred : Ptr T) (predVer : OptikT) (newnode : Ptr T)
  /-- and the CAS -/
  | insertCas (pred : Ptr T) (predVer : OptikT) (newnode : Ptr T)
  /-- `ll_optik_release(newnode); goto restart` -/
  | insertFree (newnode : Ptr T)
  /-- `pred->next = newnode` -/
  | insertStore (pred newnode : Ptr T)
  /-- `optik_unlock(&pred->lock)`: the load -/
  | insertUnlock (pred : Ptr T)
  /-- and the store -/
  | insertUnlocked (pred : Ptr T) (ver : OptikT)
  /-- `remove`: `curr = head; curr_ver = curr->lock; pred = curr; pred_ver = curr_ver` -/
  | removeHead
  /-- `curr = curr->next` -/
  | removeNext (pred : Ptr T) (predVer : OptikT)
  /-- `curr_ver = curr->lock` -/
  | removeLock (pred : Ptr T) (predVer : OptikT) (curr : Ptr T)
  /-- `curr->key < key` -/
  | removeLt (pred : Ptr T) (predVer : OptikT) (curr : Ptr T) (currVer : OptikT)
  /-- `curr->key != key` -/
  | removeNe (pred : Ptr T) (predVer : OptikT) (curr : Ptr T) (currVer : OptikT)
  /-- `cnxt = curr->next` -/
  | removeCnxt (pred : Ptr T) (predVer : OptikT) (curr : Ptr T) (currVer : OptikT)
  /-- `optik_trylock_version(&pred->lock, pred_ver)`: the test -/
  | removeTryPred (pred : Ptr T) (predVer : OptikT) (curr : Ptr T) (currVer : OptikT) (cnxt : Ptr T)
  /-- and the CAS -/
  | removeCasPred (pred : Ptr T) (predVer : OptikT) (curr : Ptr T) (currVer : OptikT) (cnxt : Ptr T)
  /-- `optik_trylock_version(&curr->lock, curr_ver)`: the test -/
  | removeTryCurr (pred curr : Ptr T) (currVer : OptikT) (cnxt : Ptr T)
  /-- and the CAS -/
  | removeCasCurr (pred curr : Ptr T) (currVer : OptikT) (cnxt : Ptr T)
  /-- `optik_revert(&pred->lock); goto restart` -/
  | removeRevert (pred : Ptr T)
  /-- `pred->next = cnxt` -/
  | removeStore (pred curr cnxt : Ptr T)
  /-- `optik_unlock(&pred->lock)`: the load -/
  | removeUnlock (pred curr : Ptr T)
  /-- and the store -/
  | removeUnlocked (pred curr : Ptr T) (ver : OptikT)
  /-- `result = curr->val` -/
  | removeVal (curr : Ptr T)
  /-- `ll_optik_release(curr)` -/
  | removeFree (curr : Ptr T) (result : V)
  /-- `return r` from a call that took effect -/
  | done (r : Answer V)
  /-- `return r` from a call that changed nothing -/
  | unchanged (r : Answer V)

variable [Zero V]

def start : Call K V → Pc T V
  | .search _ => .searchLt .head
  | .insert _ _ => .insertLock .head
  | .remove _ => .removeHead

/-- The next access to shared memory of thread `t`, and what follows from it. -/
def step (t : T) (s : OptikHeap T K V) (op : Call K V) : Pc T V → OptikHeap T K V × Pc T V
  | .searchLt curr => (s, if s.key curr < op.key then .searchNext curr else .searchEq curr)
  | .searchNext curr => (s, .searchLt (s.next curr))
  | .searchEq curr => (s, if s.key curr = op.key then .searchVal curr else .unchanged (.val 0))
  | .searchVal curr => (s, .unchanged (.val (s.val curr)))
  | .insertLock curr => (s, .insertNext curr (s.lock curr))
  | .insertNext pred predVer => (s, .insertLt pred predVer (s.next pred))
  | .insertLt pred predVer curr =>
    (s, if s.key curr < op.key then .insertLock curr else .insertEq pred predVer curr)
  | .insertEq pred predVer curr =>
    (s, if s.key curr = op.key then .unchanged (.flag false) else .insertAlloc pred predVer curr)
  | .insertAlloc pred predVer curr =>
    match op with
    | .insert key val =>
      let (s', newnode) := s.allocateLlOptik t key val curr
      (s', .insertTry pred predVer newnode)
    | _ => (s, .insertAlloc pred predVer curr)
  | .insertTry pred predVer newnode =>
    (s, if optikOutdated (s.lock pred) predVer then .insertFree newnode
      else .insertCas pred predVer newnode)
  | .insertCas pred predVer newnode =>
    match s.casLock pred predVer (predVer + 1) with
    | (true, s') => (s', .insertStore pred newnode)
    | (false, s') => (s', .insertFree newnode)
  | .insertFree newnode => (s.ssmemFree newnode, .insertLock .head)
  | .insertStore pred newnode => (s.setNext pred newnode, .insertUnlock pred)
  | .insertUnlock pred => (s, .insertUnlocked pred (s.lock pred))
  | .insertUnlocked pred ver => (s.setLock pred (ver + 1), .done (.flag true))
  | .removeHead => (s, .removeNext .head (s.lock .head))
  | .removeNext pred predVer => (s, .removeLock pred predVer (s.next pred))
  | .removeLock pred predVer curr => (s, .removeLt pred predVer curr (s.lock curr))
  | .removeLt pred predVer curr currVer =>
    (s, if s.key curr < op.key then .removeNext curr currVer else .removeNe pred predVer curr currVer)
  | .removeNe pred predVer curr currVer =>
    (s, if s.key curr ≠ op.key then .unchanged (.val 0) else .removeCnxt pred predVer curr currVer)
  | .removeCnxt pred predVer curr currVer =>
    (s, .removeTryPred pred predVer curr currVer (s.next curr))
  | .removeTryPred pred predVer curr currVer cnxt =>
    (s, if optikOutdated (s.lock pred) predVer then .removeHead
      else .removeCasPred pred predVer curr currVer cnxt)
  | .removeCasPred pred predVer curr currVer cnxt =>
    match s.casLock pred predVer (predVer + 1) with
    | (true, s') => (s', .removeTryCurr pred curr currVer cnxt)
    | (false, s') => (s', .removeHead)
  | .removeTryCurr pred curr currVer cnxt =>
    (s, if optikOutdated (s.lock curr) currVer then .removeRevert pred
      else .removeCasCurr pred curr currVer cnxt)
  | .removeCasCurr pred curr currVer cnxt =>
    match s.casLock curr currVer (currVer + 1) with
    | (true, s') => (s', .removeStore pred curr cnxt)
    | (false, s') => (s', .removeRevert pred)
  | .removeRevert pred => (s.setLock pred (s.lock pred - 1), .removeHead)
  | .removeStore pred curr cnxt => (s.setNext pred cnxt, .removeUnlock pred curr)
  | .removeUnlock pred curr => (s, .removeUnlocked pred curr (s.lock pred))
  | .removeUnlocked pred curr ver => (s.setLock pred (ver + 1), .removeVal curr)
  | .removeVal curr => (s, .removeFree curr (s.val curr))
  | .removeFree curr result => (s.ssmemFree curr, .done (.val result))
  | .done r => (s, .done r)
  | .unchanged r => (s, .unchanged r)

def result : Pc T V → Option (Answer V)
  | .done r => some r
  | .unchanged r => some r
  | _ => none

/-- The list, for clients that keep to keys strictly between the sentinels'
and values other than 0. -/
def program (T K V : Type*) [DecidableEq T] [LinearOrder K] [BoundedOrder K] [Zero V] :
    Program T (Call K V) (Answer V) (OptikHeap T K V) (Pc T V) Unit where
  init := OptikHeap.empty
  pre := Client
  start := start
  step _ t s op l := some (step t s op l)
  result := result

/-! ### What holds at each point of a call -/

/-- The nodes whose locks a call holds. -/
def holds : Pc T V → Set (Ptr T)
  | .insertStore pred _ => {pred}
  | .insertUnlock pred => {pred}
  | .insertUnlocked pred _ => {pred}
  | .removeTryCurr pred _ _ _ => {pred}
  | .removeCasCurr pred _ _ _ => {pred}
  | .removeRevert pred => {pred}
  | .removeStore pred curr _ => {pred, curr}
  | .removeUnlock pred _ => {pred}
  | .removeUnlocked pred _ _ => {pred}
  | _ => ∅

/-- A call that returns holds no lock. -/
theorem returned_holds {l : Pc T V} {r : Answer V} (h : result l = some r) : holds l = ∅ := by
  cases l <;> first | rfl | cases h

variable [BoundedOrder K] {t u : T} {S W : Set (OptikHeap T K V)} {s s' : OptikHeap T K V}
  {op : Call K V} {H : Set (Ptr T)}

/-- A node that has been linked, to the left of the key. -/
def LeftOf (S : Set (OptikHeap T K V)) (s : OptikHeap T K V) (k : K) (x : Ptr T) : Prop :=
  Pub S x ∧ s.key x < k

abbrev Walked (W : Set (OptikHeap T K V)) (s : OptikHeap T K V) (k : K) (x : Ptr T) : Prop :=
  (view T K V).Walked W s k x

abbrev Since (s : OptikHeap T K V) (x : Ptr T) (v : OptikT) : Prop := (optik T K V).Since s x v

abbrev Version (S : Set (OptikHeap T K V)) (x : Ptr T) (v : OptikT) (q : Ptr T) : Prop :=
  (optik T K V).Version S x v q

abbrev Clean (S : Set (OptikHeap T K V)) (s : OptikHeap T K V) (x : Ptr T) : Prop :=
  (optik T K V).Clean S s x

/-- A new node with key `k` and value `v`, in front of `q`. -/
abbrev Private (t : T) (S : Set (OptikHeap T K V)) (s : OptikHeap T K V) (k : K) (v : V)
    (q n : Ptr T) : Prop :=
  (view T K V).Private t S s ⟨k, v, q, optikInit⟩ n

/-- The assertion at each local state, for thread `t` in call `op`, in a run
through the memories `S` of which `W` since the call. -/
def At (t : T) (S W : Set (OptikHeap T K V)) (s : OptikHeap T K V) (op : Call K V) : Pc T V → Prop
  | .searchLt curr => (∃ k, op = .search k) ∧ Walked W s op.key curr
  | .searchNext curr => (∃ k, op = .search k) ∧ Met Lnk W curr ∧ s.key curr < op.key
  | .searchEq curr => (∃ k, op = .search k) ∧ Walked W s op.key curr ∧ op.key ≤ s.key curr
  | .searchVal curr => (∃ k, op = .search k) ∧ Met Lnk W curr ∧ s.key curr = op.key
  | .insertLock curr => (∃ k v, op = .insert k v) ∧ Met Lnk W curr ∧ s.key curr < op.key
  | .insertNext pred predVer => (∃ k v, op = .insert k v) ∧ Met Lnk W pred ∧ s.key pred < op.key ∧
      Since s pred predVer
  | .insertLt pred predVer curr => (∃ k v, op = .insert k v) ∧ LeftOf S s op.key pred ∧
      Version S pred predVer curr ∧ Walked W s op.key curr
  | .insertEq pred predVer curr => (∃ k v, op = .insert k v) ∧ LeftOf S s op.key pred ∧
      Version S pred predVer curr ∧ Walked W s op.key curr ∧ op.key ≤ s.key curr
  | .insertAlloc pred predVer curr => (∃ k v, op = .insert k v) ∧ LeftOf S s op.key pred ∧
      Version S pred predVer curr ∧ Pub S curr ∧ op.key < s.key curr
  | .insertTry pred predVer newnode => ∃ k v curr, op = .insert k v ∧ LeftOf S s k pred ∧
      Version S pred predVer curr ∧ Pub S curr ∧ k < s.key curr ∧ Private t S s k v curr newnode
  | .insertCas pred predVer newnode => ∃ k v curr, op = .insert k v ∧ LeftOf S s k pred ∧
      Version S pred predVer curr ∧ Pub S curr ∧ k < s.key curr ∧ Private t S s k v curr newnode ∧
      optikIsLocked predVer = false
  | .insertFree _ => ∃ k v, op = .insert k v
  | .insertStore pred newnode => ∃ k v, op = .insert k v ∧ Locked s pred ∧ s.key pred < k ∧
      k < s.key (s.next pred) ∧ Private t S s k v (s.next pred) newnode
  | .insertUnlock pred => Locked s pred
  | .insertUnlocked pred ver => Locked s pred ∧ s.lock pred = ver
  | .removeHead => ∃ k, op = .remove k
  | .removeNext pred predVer => (∃ k, op = .remove k) ∧ Met Lnk W pred ∧ s.key pred < op.key ∧
      Since s pred predVer
  | .removeLock pred predVer curr => (∃ k, op = .remove k) ∧ LeftOf S s op.key pred ∧
      Version S pred predVer curr ∧ Walked W s op.key curr
  | .removeLt pred predVer curr currVer => (∃ k, op = .remove k) ∧ LeftOf S s op.key pred ∧
      Version S pred predVer curr ∧ Walked W s op.key curr ∧ Since s curr currVer
  | .removeNe pred predVer curr currVer => (∃ k, op = .remove k) ∧ LeftOf S s op.key pred ∧
      Version S pred predVer curr ∧ Walked W s op.key curr ∧ Since s curr currVer ∧
      op.key ≤ s.key curr
  | .removeCnxt pred predVer curr currVer => (∃ k, op = .remove k) ∧ LeftOf S s op.key pred ∧
      Version S pred predVer curr ∧ Pub S curr ∧ s.key curr = op.key ∧ Since s curr currVer
  | .removeTryPred pred predVer curr currVer cnxt => (∃ k, op = .remove k) ∧
      LeftOf S s op.key pred ∧ Version S pred predVer curr ∧ Pub S curr ∧ s.key curr = op.key ∧
      Version S curr currVer cnxt
  | .removeCasPred pred predVer curr currVer cnxt => (∃ k, op = .remove k) ∧
      LeftOf S s op.key pred ∧ Version S pred predVer curr ∧ Pub S curr ∧ s.key curr = op.key ∧
      Version S curr currVer cnxt ∧ optikIsLocked predVer = false
  | .removeTryCurr pred curr currVer cnxt => (∃ k, op = .remove k) ∧ Locked s pred ∧
      Clean S s pred ∧ s.next pred = curr ∧ s.key pred < op.key ∧ s.key curr = op.key ∧
      Version S curr currVer cnxt
  | .removeCasCurr pred curr currVer cnxt => (∃ k, op = .remove k) ∧ Locked s pred ∧
      Clean S s pred ∧ s.next pred = curr ∧ s.key pred < op.key ∧ s.key curr = op.key ∧
      Version S curr currVer cnxt ∧ optikIsLocked currVer = false
  | .removeRevert pred => (∃ k, op = .remove k) ∧ Locked s pred ∧ Clean S s pred
  | .removeStore pred curr cnxt => (∃ k, op = .remove k) ∧ Locked s pred ∧ Locked s curr ∧
      s.next pred = curr ∧ s.key pred < op.key ∧ s.key curr = op.key ∧ s.next curr = cnxt
  | .removeUnlock pred curr => Locked s pred ∧ Pub S curr
  | .removeUnlocked pred curr ver => Locked s pred ∧ s.lock pred = ver ∧ Pub S curr
  | .removeVal curr => Pub S curr
  | .removeFree _ _ => True
  | .done _ => True
  | .unchanged r => ∃ s₀ ∈ W, (mapObject K V).apply op (absMap s₀) = (absMap s₀, r)

theorem At.locked {l : Pc T V} (h : At t S W s op l) {x : Ptr T} (hx : x ∈ holds l) : Locked s x := by
  cases l
  case insertStore => obtain ⟨k, v, -, h1, -⟩ := h; exact hx ▸ h1
  case insertUnlock => exact hx ▸ h
  case insertUnlocked => exact hx ▸ h.1
  case removeTryCurr => exact hx ▸ h.2.1
  case removeCasCurr => exact hx ▸ h.2.1
  case removeRevert => exact hx ▸ h.2.1
  case removeStore =>
    rcases hx with rfl | rfl
    · exact h.2.1
    · exact h.2.2.1
  case removeUnlock => exact hx ▸ h.1
  case removeUnlocked => exact hx ▸ h.1
  all_goals exact absurd hx (Set.notMem_empty x)

section stable

variable (hk : Keeps t H S s s')

include hk

theorem LeftOf.step {k : K} {x : Ptr T} (h : LeftOf S s k x) : LeftOf (insert s' S) s' k x :=
  ⟨h.1.insert s', by rw [hk.key x h.1]; exact h.2⟩

theorem walked_step {k : K} {x : Ptr T} (h : Walked W s k x) (hW : W ⊆ S) :
    Walked (insert s' W) s' k x := NodeView.Walked.step h (hk.key x (h.1.mono hW))

end stable

/-- A step of another thread keeps the assertion. -/
theorem At.step {l : Pc T V} (h : At u S W s op l) (w : Wf S s) (w' : Wf (insert s' S) s')
    (hW : W ⊆ S) (hu : u ≠ t) (hH : ∀ x ∈ holds l, x ∉ H) (hk : Keeps t H S s s') :
    At u (insert s' S) (insert s' W) s' op l := by
  have hkey : ∀ {x}, Pub S x → s'.key x = s.key x := fun hx => hk.key _ hx
  have hsince : ∀ {x v}, Since s x v → Since s' x v := fun hx =>
    hx.step (Set.mem_insert_of_mem _ w.listed.mem) w'.versioned
  cases l with
  | searchLt curr => exact ⟨h.1, walked_step hk h.2 hW⟩
  | searchNext curr =>
    obtain ⟨h1, h2, h3⟩ := h
    exact ⟨h1, h2.insert s', by rw [hkey (h2.mono hW)]; exact h3⟩
  | searchEq curr =>
    obtain ⟨h1, h2, h3⟩ := h
    exact ⟨h1, walked_step hk h2 hW, by rw [hkey (h2.1.mono hW)]; exact h3⟩
  | searchVal curr =>
    obtain ⟨h1, h2, h3⟩ := h
    exact ⟨h1, h2.insert s', by rw [hkey (h2.mono hW)]; exact h3⟩
  | insertLock curr =>
    obtain ⟨h1, h2, h3⟩ := h
    exact ⟨h1, h2.insert s', by rw [hkey (h2.mono hW)]; exact h3⟩
  | insertNext pred predVer =>
    obtain ⟨h1, h2, h3, h4⟩ := h
    exact ⟨h1, h2.insert s', by rw [hkey (h2.mono hW)]; exact h3, hsince h4⟩
  | insertLt pred predVer curr =>
    obtain ⟨h1, h2, h3, h4⟩ := h
    exact ⟨h1, h2.step hk, h3.insert s', walked_step hk h4 hW⟩
  | insertEq pred predVer curr =>
    obtain ⟨h1, h2, h3, h4, h5⟩ := h
    exact ⟨h1, h2.step hk, h3.insert s', walked_step hk h4 hW,
      by rw [hkey (h4.1.mono hW)]; exact h5⟩
  | insertAlloc pred predVer curr =>
    obtain ⟨h1, h2, h3, h4, h5⟩ := h
    exact ⟨h1, h2.step hk, h3.insert s', h4.insert s', by rw [hkey h4]; exact h5⟩
  | insertTry pred predVer newnode =>
    obtain ⟨k, v, c, h1, h2, h3, h4, h5, h6⟩ := h
    exact ⟨k, v, c, h1, h2.step hk, h3.insert s', h4.insert s', by rw [hkey h4]; exact h5,
      NodeView.Private.step h6 hu hk.others⟩
  | insertCas pred predVer newnode =>
    obtain ⟨k, v, c, h1, h2, h3, h4, h5, h6, h7⟩ := h
    exact ⟨k, v, c, h1, h2.step hk, h3.insert s', h4.insert s', by rw [hkey h4]; exact h5,
      NodeView.Private.step h6 hu hk.others, h7⟩
  | insertFree newnode => exact h
  | insertStore pred newnode =>
    obtain ⟨k, v, h1, h2, h3, h4, h5⟩ := h
    have hx := hH pred rfl
    have hn : s'.next pred = s.next pred := congrArg LlOptik.next (h2.mem_eq w hk hx)
    have hpub := w.listed.pub_lnk h2.lnk
    have hpn : Pub S (s.next pred) :=
      w.listed.pub_lnk (h2.lnk.next (w.listed.ne_tail_of_lt h3))
    refine ⟨k, v, h1, h2.step w hk hx, by rw [hkey hpub]; exact h3, ?_, ?_⟩
    · rw [hn, hkey hpn]; exact h4
    · rw [hn]; exact NodeView.Private.step h5 hu hk.others
  | insertUnlock pred => exact Locked.step w hk h (hH pred rfl)
  | insertUnlocked pred ver =>
    obtain ⟨h1, h2⟩ := h
    have hx := hH pred rfl
    exact ⟨h1.step w hk hx, (congrArg LlOptik.lock (h1.mem_eq w hk hx)).trans h2⟩
  | removeHead => exact h
  | removeNext pred predVer =>
    obtain ⟨h1, h2, h3, h4⟩ := h
    exact ⟨h1, h2.insert s', by rw [hkey (h2.mono hW)]; exact h3, hsince h4⟩
  | removeLock pred predVer curr =>
    obtain ⟨h1, h2, h3, h4⟩ := h
    exact ⟨h1, h2.step hk, h3.insert s', walked_step hk h4 hW⟩
  | removeLt pred predVer curr currVer =>
    obtain ⟨h1, h2, h3, h4, h5⟩ := h
    exact ⟨h1, h2.step hk, h3.insert s', walked_step hk h4 hW, hsince h5⟩
  | removeNe pred predVer curr currVer =>
    obtain ⟨h1, h2, h3, h4, h5, h6⟩ := h
    exact ⟨h1, h2.step hk, h3.insert s', walked_step hk h4 hW, hsince h5,
      by rw [hkey (h4.1.mono hW)]; exact h6⟩
  | removeCnxt pred predVer curr currVer =>
    obtain ⟨h1, h2, h3, h4, h5, h6⟩ := h
    exact ⟨h1, h2.step hk, h3.insert s', h4.insert s', by rw [hkey h4]; exact h5, hsince h6⟩
  | removeTryPred pred predVer curr currVer cnxt =>
    obtain ⟨h1, h2, h3, h4, h5, h6⟩ := h
    exact ⟨h1, h2.step hk, h3.insert s', h4.insert s', by rw [hkey h4]; exact h5, h6.insert s'⟩
  | removeCasPred pred predVer curr currVer cnxt =>
    obtain ⟨h1, h2, h3, h4, h5, h6, h7⟩ := h
    exact ⟨h1, h2.step hk, h3.insert s', h4.insert s', by rw [hkey h4]; exact h5, h6.insert s', h7⟩
  | removeTryCurr pred curr currVer cnxt =>
    obtain ⟨h1, h2, h3, h4, h5, h6, h7⟩ := h
    have hx := hH pred rfl
    have hm := h2.mem_eq w hk hx
    have hpub := w.listed.pub_lnk h2.lnk
    have hpc : Pub S curr := h4 ▸ w.listed.pub_lnk (h2.lnk.next (w.listed.ne_tail_of_lt h5))
    exact ⟨h1, h2.step w hk hx, h3.keep (by simp only [OptikView.word, hm]) (by rw [hm]),
      (congrArg LlOptik.next hm).trans h4, by rw [hkey hpub]; exact h5, by rw [hkey hpc]; exact h6,
      h7.insert s'⟩
  | removeCasCurr pred curr currVer cnxt =>
    obtain ⟨h1, h2, h3, h4, h5, h6, h7, h8⟩ := h
    have hx := hH pred rfl
    have hm := h2.mem_eq w hk hx
    have hpub := w.listed.pub_lnk h2.lnk
    have hpc : Pub S curr := h4 ▸ w.listed.pub_lnk (h2.lnk.next (w.listed.ne_tail_of_lt h5))
    exact ⟨h1, h2.step w hk hx, h3.keep (by simp only [OptikView.word, hm]) (by rw [hm]),
      (congrArg LlOptik.next hm).trans h4, by rw [hkey hpub]; exact h5, by rw [hkey hpc]; exact h6,
      h7.insert s', h8⟩
  | removeRevert pred =>
    obtain ⟨h1, h2, h3⟩ := h
    have hx := hH pred rfl
    have hm := h2.mem_eq w hk hx
    exact ⟨h1, h2.step w hk hx, h3.keep (by simp only [OptikView.word, hm]) (by rw [hm])⟩
  | removeStore pred curr cnxt =>
    obtain ⟨h1, h2, h3, h4, h5, h6, h7⟩ := h
    have hx := hH pred (Or.inl rfl)
    have hy := hH curr (Or.inr rfl)
    exact ⟨h1, h2.step w hk hx, h3.step w hk hy,
      (congrArg LlOptik.next (h2.mem_eq w hk hx)).trans h4,
      by rw [hkey (w.listed.pub_lnk h2.lnk)]; exact h5,
      by rw [hkey (w.listed.pub_lnk h3.lnk)]; exact h6,
      (congrArg LlOptik.next (h3.mem_eq w hk hy)).trans h7⟩
  | removeUnlock pred curr => exact ⟨h.1.step w hk (hH pred rfl), h.2.insert s'⟩
  | removeUnlocked pred curr ver =>
    obtain ⟨h1, h2, h3⟩ := h
    have hx := hH pred rfl
    exact ⟨h1.step w hk hx, (congrArg LlOptik.lock (h1.mem_eq w hk hx)).trans h2, h3.insert s'⟩
  | removeVal curr => exact h.insert s'
  | removeFree curr result => trivial
  | done r => trivial
  | unchanged r =>
    obtain ⟨s₀, hs₀, h1⟩ := h
    exact ⟨s₀, Set.mem_insert_of_mem _ hs₀, h1⟩

/-! ### The steps -/

/-- The result of a call that has taken effect. -/
def lin (s : OptikHeap T K V) : Call K V → Pc T V → Option (Answer V)
  | _, .insertUnlock _ => some (.flag true)
  | _, .insertUnlocked _ _ => some (.flag true)
  | _, .removeUnlock _ curr => some (.val (s.val curr))
  | _, .removeUnlocked _ curr _ => some (.val (s.val curr))
  | _, .removeVal curr => some (.val (s.val curr))
  | _, .removeFree _ result => some (.val result)
  | _, .done r => some r
  | _, _ => none

theorem lin_step {l : Pc T V} (h : At u S W s op l) (hk : Keeps t H S s s') :
    lin s' op l = lin s op l := by
  cases l
  case removeUnlock => simp [lin, hk.val _ h.2]
  case removeUnlocked => simp [lin, hk.val _ h.2.2]
  case removeVal => simp [lin, hk.val _ h]
  all_goals rfl

/-- What a step does: it is one of the writes, it establishes the next
assertion, and it changes the map only where the call takes effect. -/
structure StepOk (t : T) (S W : Set (OptikHeap T K V)) (s : OptikHeap T K V) (op : Call K V)
    (l : Pc T V) (s' : OptikHeap T K V) (l' : Pc T V) : Prop where
  act : Act t S s (holds l) (holds l') s'
  next : At t (insert s' S) (insert s' W) s' op l'
  point : (lin s' op l' = lin s op l ∧ absMap s' = absMap s) ∨ (lin s op l = none ∧ ∃ r,
    lin s' op l' = some r ∧ (mapObject K V).apply op (absMap s) = (absMap s', r))

section step

variable (w : Wf S s)

include w

/-- A step that only reads. -/
theorem StepOk.read {l l' : Pc T V} (hs : s ∈ W) (hH : holds l' = holds l) (h : At t S W s op l')
    (hl : lin s op l' = lin s op l) : StepOk t S W s op l s l' := by
  refine ⟨.skip hH, ?_, Or.inl ⟨hl, rfl⟩⟩
  rw [Set.insert_eq_of_mem w.listed.mem, Set.insert_eq_of_mem hs]
  exact h

theorem setLock_absMap (x : Ptr T) (v : OptikT) : absMap (s.setLock x v) = absMap s :=
  (setLock_same S s x v).absMap w.listed fun _ _ => Iff.rfl

/-- Taking a lock with a version: the pointer is as it was read. -/
theorem take_ok {x q : Ptr T} {v : OptikT} (hx : Pub S x) (hv : Version S x v q)
    (hu : optikIsLocked v = false) (he : s.lock x = v) (hd : v + 1 ≠ optikDeleted)
    (H : Set (Ptr T)) :
    Act t S s H (insert x H) (s.setLock x (v + 1)) ∧ Locked (s.setLock x (v + 1)) x ∧
      Clean (insert (s.setLock x (v + 1)) S) (s.setLock x (v + 1)) x ∧ s.next x = q := by
  have hl : Lnk s x := by
    by_contra hl
    have := w.unlinked x hx hl
    rw [he, hu] at this
    cases this
  have hw : (optik T K V).word (s.setLock x (v + 1)) x = v + 1 := OptikHeap.lock_setLock_self s x _
  subst he
  refine ⟨.take rfl hx hu, ⟨(setLock_lnk s x x _).mpr hl, ?_, ?_⟩, ?_, hv.data_eq w.versioned hu rfl⟩
  · rw [OptikHeap.lock_setLock_self]; exact lock_locked hu
  · rw [OptikHeap.lock_setLock_self]; exact hd
  · exact (w.versioned.clean x hu).keep (by rw [hw]; exact sections_lock hu)
      (OptikHeap.next_setLock s x x _)

/-- A node met with the key of the call held its value when it was linked. -/
theorem someSeen {k : K} {x : Ptr T} (hW : W ⊆ S) (hx : Met Lnk W x) (hk : s.key x = k) (hb : ⊥ < k)
    (ht : k < ⊤) : (view T K V).SomeSeen W k (s.val x) := by
  obtain ⟨s₀, h0, hl⟩ := hx
  have hxh := w.listed.ne_head_of_lt (x := x) (k := ⊥) (by rw [← hk] at hb; exact hb)
  have hxt := w.listed.ne_tail_of_lt (x := x) (k := ⊤) (by rw [← hk] at ht; exact ht)
  exact ⟨s₀, h0, hk ▸ w.listed.absMap_past (hW h0) ⟨hl, id, hxh, hxt⟩⟩

theorem head_lt {k : K} (hb : ⊥ < k) : s.key .head < k := by
  rw [show s.key .head = ⊥ from w.listed.head_key]; exact hb

variable (hs : s ∈ W) (hW : W ⊆ S) (hh : (view T K V).Hind W s) (hb : ⊥ < op.key) (ht : op.key < ⊤)

include hs hW hh hb ht

theorem walked_next {x : Ptr T} (hx : Met Lnk W x) (hk : s.key x < op.key) :
    Walked W s op.key (s.next x) :=
  NodeView.Passed.next w.listed hW hh ⟨hx, Or.inl hk⟩ (w.listed.ne_tail_of_lt hk)

theorem step_ok_search {l : Pc T V} (h : At t S W s op l)
    (hl : (∃ c, l = .searchLt c) ∨ (∃ c, l = .searchNext c) ∨ (∃ c, l = .searchEq c) ∨
      ∃ c, l = .searchVal c) : StepOk t S W s op l (step t s op l).1 (step t s op l).2 := by
  rcases hl with ⟨c, rfl⟩ | ⟨c, rfl⟩ | ⟨c, rfl⟩ | ⟨c, rfl⟩
  · obtain ⟨h1, h2⟩ := h
    by_cases hlt : s.key c < op.key
    · simp only [step, hlt, if_true]
      exact .read w hs rfl ⟨h1, h2.1, hlt⟩ rfl
    · simp only [step, hlt, if_false]
      exact .read w hs rfl ⟨h1, h2, not_lt.mp hlt⟩ rfl
  · obtain ⟨h1, h2, h3⟩ := h
    exact .read w hs rfl ⟨h1, walked_next w hs hW hh hb ht h2 h3⟩ rfl
  · obtain ⟨h1, h2, h3⟩ := h
    by_cases he : s.key c = op.key
    · simp only [step, he, if_true]
      exact .read w hs rfl ⟨h1, h2.1, he⟩ rfl
    · simp only [step, he, if_false]
      obtain ⟨s₀, hs₀, h0⟩ := h2.2.resolve_left fun hle => he (le_antisymm hle h3)
      obtain ⟨k, rfl⟩ := h1
      exact .read w hs rfl ⟨s₀, hs₀, apply_search_none h0⟩ rfl
  · obtain ⟨⟨k, rfl⟩, h2, h3⟩ := h
    obtain ⟨s₀, hs₀, h0⟩ := someSeen w hW h2 h3 hb ht
    exact .read w hs rfl ⟨s₀, hs₀, apply_search_some h0⟩ rfl

theorem step_ok_insert_find {l : Pc T V} (h : At t S W s op l)
    (hl : (∃ c, l = .insertLock c) ∨ (∃ p v, l = .insertNext p v) ∨
      (∃ p v c, l = .insertLt p v c) ∨ (∃ p v c, l = .insertEq p v c) ∨
      (∃ p v c, l = .insertAlloc p v c)) :
    StepOk t S W s op l (step t s op l).1 (step t s op l).2 := by
  rcases hl with ⟨c, rfl⟩ | ⟨p, v, rfl⟩ | ⟨p, v, c, rfl⟩ | ⟨p, v, c, rfl⟩ | ⟨p, v, c, rfl⟩
  · obtain ⟨h1, h2, h3⟩ := h
    exact .read w hs rfl ⟨h1, h2, h3, w.listed.alloc c (h2.mono hW), le_rfl⟩ rfl
  · obtain ⟨h1, h2, h3, h4⟩ := h
    exact .read w hs rfl ⟨h1, ⟨h2.mono hW, h3⟩, h4.version w.listed.mem,
      walked_next w hs hW hh hb ht h2 h3⟩ rfl
  · obtain ⟨h1, h2, h3, h4⟩ := h
    by_cases hlt : s.key c < op.key
    · simp only [step, hlt, if_true]
      exact .read w hs rfl ⟨h1, h4.1, hlt⟩ rfl
    · simp only [step, hlt, if_false]
      exact .read w hs rfl ⟨h1, h2, h3, h4, not_lt.mp hlt⟩ rfl
  · obtain ⟨h1, h2, h3, h4, h5⟩ := h
    by_cases he : s.key c = op.key
    · simp only [step, he, if_true]
      obtain ⟨s₀, hs₀, h0⟩ := someSeen w hW h4.1 he hb ht
      obtain ⟨k, v, rfl⟩ := h1
      exact .read w hs rfl ⟨s₀, hs₀, apply_insert_some h0⟩ rfl
    · simp only [step, he, if_false]
      exact .read w hs rfl ⟨h1, h2, h3, h4.1.mono hW, lt_of_le_of_ne h5 (Ne.symm he)⟩ rfl
  · obtain ⟨⟨k, v', rfl⟩, h2, h3, h4, h5⟩ := h
    obtain ⟨hsame, -, hp⟩ := w.listed.allocate t ⟨k, v', c, optikInit⟩
    have hact : Act t S s ∅ ∅ (s.allocate t ⟨k, v', c, optikInit⟩).1 := .alloc rfl rfl
    have hk := hact.keeps w
    refine ⟨hact, ⟨k, v', c, rfl, h2.step hk, h3.insert _, h4.insert _, ?_, hp⟩, Or.inl ⟨rfl, ?_⟩⟩
    · exact h5.trans_eq (hk.key c h4).symm
    · exact hsame.absMap w.listed fun _ _ => Iff.rfl

theorem step_ok_insert {l : Pc T V} (h : At t S W s op l)
    (hd : ∀ x, optikIsLocked (s.lock x) = false → (step t s op l).1.lock x = s.lock x + 1 →
      s.lock x + 1 ≠ optikDeleted)
    (hl : (∃ p v n, l = .insertTry p v n) ∨ (∃ p v n, l = .insertCas p v n) ∨
      (∃ n, l = .insertFree n) ∨ (∃ p n, l = .insertStore p n) ∨ (∃ p, l = .insertUnlock p) ∨
      ∃ p v, l = .insertUnlocked p v) :
    StepOk t S W s op l (step t s op l).1 (step t s op l).2 := by
  rcases hl with ⟨p, v, n, rfl⟩ | ⟨p, v, n, rfl⟩ | ⟨n, rfl⟩ | ⟨p, n, rfl⟩ | ⟨p, rfl⟩ | ⟨p, v, rfl⟩
  · obtain ⟨k, v', c, rfl, h2, h3, h4, h5, h6⟩ := h
    by_cases ho : optikOutdated (s.lock p) v = true
    · simp only [step, ho, if_true]
      exact .read w hs rfl ⟨k, v', rfl⟩ rfl
    · simp only [step, ho]
      exact .read w hs rfl ⟨k, v', c, rfl, h2, h3, h4, h5, h6, not_locked_of_outdated ho⟩ rfl
  · obtain ⟨k, v', c, rfl, h2, h3, h4, h5, h6, h7⟩ := h
    rcases hc : s.casLock p v (v + 1) with ⟨⟨⟩, s'⟩
    · simp only [step, hc]
      rw [OptikHeap.casLock_false hc]
      exact .read w hs rfl ⟨k, v', rfl⟩ rfl
    · obtain ⟨he, rfl⟩ := OptikHeap.casLock_true hc
      have hd' : v + 1 ≠ optikDeleted := by
        have := hd p (he ▸ h7) (by simp [step, hc, he])
        rwa [he] at this
      simp only [step, hc]
      obtain ⟨hact, hlk, -, hn⟩ := take_ok (t := t) w h2.1 h3 h7 he hd' ∅
      have hk := hact.keeps w
      have hnp : n ≠ p := fun he => h6.1 (he ▸ h2.1)
      refine ⟨?_, ⟨k, v', rfl, hlk, ?_, ?_, ?_⟩, Or.inl ⟨rfl, setLock_absMap w p _⟩⟩
      · simpa [holds] using hact
      · rw [OptikHeap.key_setLock]; exact h2.2
      · rw [OptikHeap.key_setLock, OptikHeap.next_setLock, hn]; exact h5
      · rw [OptikHeap.next_setLock, hn]
        refine NodeView.Private.congr h6 (fun hx => ⟨OptikHeap.mem_setLock_of_ne s p n _ hnp, ?_⟩) le_rfl
        rwa [(setLock_same S s p _).pub w.listed]
  · obtain ⟨k, v', rfl⟩ := h
    have hact : Act t S s ∅ ∅ (s.ssmemFree n) := .free n rfl
    refine ⟨hact, ⟨⟨k, v', rfl⟩, ⟨_, Set.mem_insert _ _, linked_head⟩, ?_⟩, Or.inl ⟨rfl, rfl⟩⟩
    exact head_lt (s := s) w hb
  · obtain ⟨k, v', rfl, h2, h3, h4, h5⟩ := h
    have hact : Act t S s {p} {p} (s.setNext p n) := .link rfl rfl h2 h5 h3 h4
    obtain ⟨hn, habs⟩ := link_absMap w h2 h5 h3 h4
    simp only [step]
    refine ⟨hact, ⟨(link_lnk w h2 h5 h3 h4 p).mpr (Or.inl h2.lnk), ?_, ?_⟩, Or.inr ⟨rfl, _, rfl, ?_⟩⟩
    · rw [OptikHeap.lock_setNext]; exact h2.locked
    · rw [OptikHeap.lock_setNext]; exact h2.ne_deleted
    · rw [apply_insert_none hn, ← habs]
  · exact .read w hs rfl ⟨h, rfl⟩ rfl
  · obtain ⟨h1, rfl⟩ := h
    exact ⟨.unlock Set.sdiff_self.symm rfl h1, trivial, Or.inl ⟨rfl, setLock_absMap w p _⟩⟩

theorem step_ok_remove_find {l : Pc T V} (h : At t S W s op l)
    (hl : l = .removeHead ∨ (∃ p v, l = .removeNext p v) ∨ (∃ p v c, l = .removeLock p v c) ∨
      (∃ p v c cv, l = .removeLt p v c cv) ∨ (∃ p v c cv, l = .removeNe p v c cv) ∨
      ∃ p v c cv, l = .removeCnxt p v c cv) :
    StepOk t S W s op l (step t s op l).1 (step t s op l).2 := by
  rcases hl with rfl | ⟨p, v, rfl⟩ | ⟨p, v, c, rfl⟩ | ⟨p, v, c, cv, rfl⟩ | ⟨p, v, c, cv, rfl⟩ |
    ⟨p, v, c, cv, rfl⟩
  · exact .read w hs rfl ⟨h, ⟨s, hs, linked_head⟩, head_lt w hb,
      w.listed.alloc _ w.listed.pub_head, le_rfl⟩ rfl
  · obtain ⟨h1, h2, h3, h4⟩ := h
    exact .read w hs rfl ⟨h1, ⟨h2.mono hW, h3⟩, h4.version w.listed.mem,
      walked_next w hs hW hh hb ht h2 h3⟩ rfl
  · obtain ⟨h1, h2, h3, h4⟩ := h
    exact .read w hs rfl ⟨h1, h2, h3, h4, w.listed.alloc c (h4.1.mono hW), le_rfl⟩ rfl
  · obtain ⟨h1, h2, h3, h4, h5⟩ := h
    by_cases hlt : s.key c < op.key
    · simp only [step, hlt, if_true]
      exact .read w hs rfl ⟨h1, h4.1, hlt, h5⟩ rfl
    · simp only [step, hlt, if_false]
      exact .read w hs rfl ⟨h1, h2, h3, h4, h5, not_lt.mp hlt⟩ rfl
  · obtain ⟨h1, h2, h3, h4, h5, h6⟩ := h
    by_cases he : s.key c = op.key
    · simp only [step, he, ne_eq, not_true_eq_false, if_false]
      exact .read w hs rfl ⟨h1, h2, h3, h4.1.mono hW, he, h5⟩ rfl
    · simp only [step, he, ne_eq, not_false_eq_true, if_true]
      obtain ⟨s₀, hs₀, h0⟩ := h4.2.resolve_left fun hle => he (le_antisymm hle h6)
      obtain ⟨k, rfl⟩ := h1
      exact .read w hs rfl ⟨s₀, hs₀, apply_remove_none h0⟩ rfl
  · obtain ⟨h1, h2, h3, h4, h5, h6⟩ := h
    exact .read w hs rfl ⟨h1, h2, h3, h4, h5, h6.version w.listed.mem⟩ rfl

theorem step_ok_remove_lock {l : Pc T V} (h : At t S W s op l)
    (hd : ∀ x, optikIsLocked (s.lock x) = false → (step t s op l).1.lock x = s.lock x + 1 →
      s.lock x + 1 ≠ optikDeleted)
    (hl : (∃ p v c cv n, l = .removeTryPred p v c cv n) ∨ (∃ p v c cv n, l = .removeCasPred p v c cv n) ∨
      (∃ p c cv n, l = .removeTryCurr p c cv n) ∨ (∃ p c cv n, l = .removeCasCurr p c cv n) ∨
      ∃ p, l = .removeRevert p) :
    StepOk t S W s op l (step t s op l).1 (step t s op l).2 := by
  rcases hl with ⟨p, v, c, cv, n, rfl⟩ | ⟨p, v, c, cv, n, rfl⟩ | ⟨p, c, cv, n, rfl⟩ |
    ⟨p, c, cv, n, rfl⟩ | ⟨p, rfl⟩
  · obtain ⟨h1, h2, h3, h4, h5, h6⟩ := h
    by_cases ho : optikOutdated (s.lock p) v = true
    · simp only [step, ho, if_true]
      exact .read w hs rfl h1 rfl
    · simp only [step, ho]
      exact .read w hs rfl ⟨h1, h2, h3, h4, h5, h6, not_locked_of_outdated ho⟩ rfl
  · obtain ⟨h1, h2, h3, h4, h5, h6, h7⟩ := h
    rcases hc : s.casLock p v (v + 1) with ⟨⟨⟩, s'⟩
    · simp only [step, hc]
      rw [OptikHeap.casLock_false hc]
      exact .read w hs rfl h1 rfl
    · obtain ⟨he, rfl⟩ := OptikHeap.casLock_true hc
      have hd' : v + 1 ≠ optikDeleted := by
        have := hd p (he ▸ h7) (by simp [step, hc, he])
        rwa [he] at this
      simp only [step, hc]
      obtain ⟨hact, hlk, hcl, hn⟩ := take_ok (t := t) w h2.1 h3 h7 he hd' ∅
      refine ⟨?_, ⟨h1, hlk, hcl, ?_, ?_, ?_, h6.insert _⟩, Or.inl ⟨rfl, setLock_absMap w p _⟩⟩
      · simpa [holds] using hact
      · rw [OptikHeap.next_setLock, hn]
      · rw [OptikHeap.key_setLock]; exact h2.2
      · rw [OptikHeap.key_setLock]; exact h5
  · obtain ⟨h1, h2, h3, h4, h5, h6, h7⟩ := h
    by_cases ho : optikOutdated (s.lock c) cv = true
    · simp only [step, ho, if_true]
      exact .read w hs rfl ⟨h1, h2, h3⟩ rfl
    · simp only [step, ho]
      exact .read w hs rfl ⟨h1, h2, h3, h4, h5, h6, h7, not_locked_of_outdated ho⟩ rfl
  · obtain ⟨h1, h2, h3, h4, h5, h6, h7, h8⟩ := h
    rcases hc : s.casLock c cv (cv + 1) with ⟨⟨⟩, s'⟩
    · simp only [step, hc]
      rw [OptikHeap.casLock_false hc]
      exact .read w hs rfl ⟨h1, h2, h3⟩ rfl
    · obtain ⟨he, rfl⟩ := OptikHeap.casLock_true hc
      have hd' : cv + 1 ≠ optikDeleted := by
        have := hd c (he ▸ h8) (by simp [step, hc, he])
        rwa [he] at this
      simp only [step, hc]
      have hpc : Pub S c := h4 ▸ w.listed.pub_lnk (h2.lnk.next (w.listed.ne_tail_of_lt h5))
      have hne : p ≠ c := by
        rintro rfl
        exact absurd h6 (ne_of_lt h5)
      obtain ⟨hact, hlk, -, hn⟩ := take_ok (t := t) w hpc h7 h8 he hd' {p}
      refine ⟨?_, ⟨h1, ⟨?_, ?_, ?_⟩, hlk, ?_, ?_, ?_, ?_⟩, Or.inl ⟨rfl, setLock_absMap w c _⟩⟩
      · rw [show holds (.removeStore p c n : Pc T V) = insert c {p} from Set.pair_comm p c]
        exact hact
      · rw [setLock_lnk]; exact h2.lnk
      · rw [OptikHeap.lock_setLock_of_ne s c p _ hne]; exact h2.locked
      · rw [OptikHeap.lock_setLock_of_ne s c p _ hne]; exact h2.ne_deleted
      · rw [OptikHeap.next_setLock]; exact h4
      · rw [OptikHeap.key_setLock]; exact h5
      · rw [OptikHeap.key_setLock]; exact h6
      · rw [OptikHeap.next_setLock]; exact hn
  · obtain ⟨h1, h2, h3⟩ := h
    exact ⟨.revert Set.sdiff_self.symm rfl h2 h3, h1, Or.inl ⟨rfl, setLock_absMap w p _⟩⟩

theorem step_ok_remove {l : Pc T V} (h : At t S W s op l)
    (hl : (∃ p c n, l = .removeStore p c n) ∨ (∃ p c, l = .removeUnlock p c) ∨
      (∃ p c v, l = .removeUnlocked p c v) ∨ (∃ c, l = .removeVal c) ∨ ∃ c r, l = .removeFree c r) :
    StepOk t S W s op l (step t s op l).1 (step t s op l).2 := by
  rcases hl with ⟨p, c, n, rfl⟩ | ⟨p, c, rfl⟩ | ⟨p, c, v, rfl⟩ | ⟨c, rfl⟩ | ⟨c, r, rfl⟩
  · obtain ⟨⟨k, rfl⟩, h2, h3, h4, h5, h6, rfl⟩ := h
    have hpt := w.listed.ne_tail_of_lt h5
    have hct : c ≠ .tail := w.listed.ne_tail_of_lt (show s.key c < ⊤ by rw [h6]; exact ht)
    have hch : c ≠ .head := w.listed.ne_head_of_lt (show ⊥ < s.key c by rw [h6]; exact hb)
    have hne := unlink_ne w h2 h4 hpt hct
    have hact : Act t S s {p, c} {p} (s.setNext p (s.next c)) := by
      refine .unlink ?_ (Or.inl rfl) (Or.inr rfl) h2 h3 h4 hpt hct
      rw [Set.pair_comm, Set.insert_sdiff_self_of_notMem (by simpa using hne.symm)]
    obtain ⟨hv, habs⟩ := unlink_absMap w h2 h4 hpt hct hch
    simp only [step]
    refine ⟨hact, ⟨⟨(unlink_lnk w h2 h4 hpt hct p).mpr ⟨h2.lnk, hne⟩, ?_, ?_⟩, ?_⟩,
      Or.inr ⟨rfl, _, rfl, ?_⟩⟩
    · rw [OptikHeap.lock_setNext]; exact h2.locked
    · rw [OptikHeap.lock_setNext]; exact h2.ne_deleted
    · exact (w.listed.pub_lnk h3.lnk).insert _
    · rw [show s.key c = k from h6] at hv habs
      rw [apply_remove_some hv, ← habs]
      rw [OptikHeap.val_setNext]
  · exact .read w hs rfl ⟨h.1, rfl, h.2⟩ rfl
  · obtain ⟨h1, rfl, h2⟩ := h
    refine ⟨.unlock Set.sdiff_self.symm rfl h1, h2.insert _, Or.inl ⟨?_, setLock_absMap w p _⟩⟩
    simp only [step, lin, OptikHeap.val_setLock]
  · exact .read w hs rfl trivial rfl
  · exact ⟨.free c rfl, trivial, Or.inl ⟨rfl, rfl⟩⟩

/-- **Every step is one of the writes, and leads to the next assertion.** -/
theorem step_ok {l : Pc T V} (h : At t S W s op l) (hr : result l = none)
    (hd : ∀ x, optikIsLocked (s.lock x) = false → (step t s op l).1.lock x = s.lock x + 1 →
      s.lock x + 1 ≠ optikDeleted) :
    StepOk t S W s op l (step t s op l).1 (step t s op l).2 := by
  cases l
  case searchLt | searchNext | searchEq | searchVal =>
    exact step_ok_search w hs hW hh hb ht h (by simp)
  case insertLock | insertNext | insertLt | insertEq | insertAlloc =>
    exact step_ok_insert_find w hs hW hh hb ht h (by simp)
  case insertTry | insertCas | insertFree | insertStore | insertUnlock | insertUnlocked =>
    exact step_ok_insert w hs hW hh hb ht h hd (by simp)
  case removeHead | removeNext | removeLock | removeLt | removeNe | removeCnxt =>
    exact step_ok_remove_find w hs hW hh hb ht h (by simp)
  case removeTryPred | removeCasPred | removeTryCurr | removeCasCurr | removeRevert =>
    exact step_ok_remove_lock w hs hW hh hb ht h hd (by simp)
  case removeStore | removeUnlock | removeUnlocked | removeVal | removeFree =>
    exact step_ok_remove w hs hW hh hb ht h (by simp)
  case done => cases hr
  case unchanged => cases hr

end step

/-! ### Runs -/

/-- The runs with fewer than 2^63 acquisitions of any one lock. -/
abbrev Few (es : Trace T (Call K V) (Answer V) (OptikHeap T K V) (Pc T V)) :=
  (optik T K V).Few (program T K V) es

theorem start_at (w : Wf S s) (op : Call K V) (hb : ⊥ < op.key) : At t S {s} s op (start op) := by
  have hmet : Met Lnk {s} (.head : Ptr T) := ⟨s, rfl, linked_head⟩
  have hlt := head_lt w hb
  rcases op with k | ⟨k, v⟩ | k
  · exact ⟨⟨k, rfl⟩, hmet, Or.inl hlt.le⟩
  · exact ⟨⟨k, v, rfl⟩, hmet, hlt⟩
  · exact ⟨k, rfl⟩

variable [Nontrivial K]

theorem tau_ok {es : Trace T (Call K V) (Answer V) (OptikHeap T K V) (Pc T V)} {e}
    {c : Config T (Call K V) (OptikHeap T K V) (Pc T V)} {l l' : Pc T V} {th} (w : Wf S s)
    (hb : (optik T K V).Bounded (program T K V) es s) (hs : s ∈ W) (hW : W ⊆ S)
    (hh : (view T K V).Hind W s) (hc : Client op) (h : At t S W s op l)
    (hres : result l = none) (hstep : step t s op l = (s', l')) (hfew : Few es c e ⟨s', th⟩) :
    StepOk t S W s op l s' l' := by
  have hd : ∀ x, optikIsLocked (s.lock x) = false →
      (step t s op l).1.lock x = s.lock x + 1 → s.lock x + 1 ≠ optikDeleted := by
    intro x hu hx
    rw [hstep] at hx
    rw [← hx]
    exact hb.take_ne_deleted hfew hu hx
  have := step_ok w hs hW hh hc.1 hc.2.1 h hres hd
  rwa [hstep] at this

/-- The proof outline. No two threads hold the same lock. -/
def outline : Outline (program T K V) Few (fun _ _ => False) where
  glob es s := Wf ((program T K V).seen es) s ∧ (optik T K V).Bounded (program T K V) es s
  loc t W₀ W s op l := W ⊆ W₀ ∧ (view T K V).Hind W s ∧ Client op ∧ At t W₀ W s op l
  pair f g := ∀ x, x ∈ holds f.2 → x ∉ holds g.2
  pair_symm h x hx hx' := h x hx' hx
  init := ⟨Wf.initial, .initial fun x => by cases x <;> rfl⟩
  frame := by
    intro es s e th ⟨hw, hb⟩ _
    rw [Program.seen, Set.insert_eq_of_mem hw.listed.mem]
    exact ⟨hw, hb.frame⟩
  call t hg hs hp := ⟨Set.singleton_subset_iff.mpr hs, .singleton _, hp, start_at hg.1 _ hp.1⟩
  call_pair := by
    rintro (k | ⟨k, v⟩ | k) g x hx <;> exact absurd hx (Set.notMem_empty x)
  tau := by
    intro es c t op l i s' l' hr ht hres hstep hfew ⟨hw, hb⟩ ⟨hW, hh, hc, hat⟩
    have hok := tau_ok hw hb (hr.shared_mem_window _ ht) hW hh hc hat hres
      (Option.some.inj hstep) hfew
    have hw' := hok.act.wf hw
    have hk := hok.act.keeps hw
    rw [extend_of_not id]
    refine ⟨⟨hw', ?_⟩, ⟨Set.insert_subset_insert hW, hok.act.hindsight hw hW hh, hc, hok.next⟩,
      fun u op₁ l₁ hu _ ⟨hW₁, hh₁, hc₁, hat₁⟩ hp => ⟨?_, fun x hx hx₁ => ?_⟩⟩
    · exact hb.step hfew fun x => (hok.act.touch hw x).imp_right And.left
    · exact ⟨Set.insert_subset_insert hW₁, hok.act.hindsight hw hW₁ hh₁, hc₁,
        hat₁.step hw hw' hW₁ hu (fun x hx hx' => hp x hx' hx) hk⟩
    · rcases hok.act.holds x hx with h | h
      · exact hp x h hx₁
      · rw [(hat₁.locked hx₁).locked] at h
        cases h

section run

variable {es : Trace T (Call K V) (Answer V) (OptikHeap T K V) (Pc T V)}
  {c : Config T (Call K V) (OptikHeap T K V) (Pc T V)}

theorem wf_of_run (hr : (program T K V).RunIf Few es c) : Wf ((program T K V).seen es) c.shared :=
  (outline.holds hr).glob.1

theorem step_ok_of_run (hr : (program T K V).RunIf Few es c) {l l' : Pc T V} {th}
    (ht : c.threads t = some (op, l)) (hres : result l = none)
    (hstep : step t c.shared op l = (s', l')) (hfew : Few es c (.tau t) ⟨s', th⟩) :
    StepOk t ((program T K V).seen es) (window (fun _ _ => False) t es) c.shared op l s' l' := by
  obtain ⟨hw, hb⟩ := (outline.holds hr).glob
  obtain ⟨hW, hh, hc, hat⟩ := (outline.holds hr).loc t op l ht
  exact tau_ok hw hb (hr.shared_mem_window _ ht) hW hh hc hat hres hstep hfew

/-- **The list is linearizable to the map of its linked nodes.** -/
theorem linearizable [Fintype T] :
    LinearizableIf (mapObject K V) (program T K V) Few absMap :=
  Concur.linearizable <| outline.points lin empty_absMap (fun s op => by cases op <;> rfl)
    (fun {es c t op l i s' l'} hr hh ht hres hstep hfew => by
      have hok := step_ok_of_run hr ht hres (Option.some.inj hstep) hfew
      refine ⟨hok.point, fun u op₁ l₁ _ hu => ?_⟩
      exact lin_step (hh.loc u op₁ l₁ hu).2.2.2 (hok.act.keeps hh.glob.1))
    fun {es c t op l r} hr hh ht hres => by
      have hat := (hh.loc t op l ht).2.2.2
      cases l <;> cases hres
      · exact Or.inl rfl
      · exact Or.inr ⟨rfl, hat⟩

/-- A linked node whose lock is taken is held by a thread. -/
theorem held_of_run (hr : (program T K V).RunIf Few es c) {x : Ptr T} (hx : Lnk c.shared x)
    (hl : optikIsLocked (c.shared.lock x) = true) :
    ∃ t op l, c.threads t = some (op, l) ∧ x ∈ holds l := by
  refine hr.responsible (Q := fun s => Lnk s x ∧ optikIsLocked (s.lock x) = true)
    (A := fun _ l => x ∈ holds l) ?_ ?_ ?_ ⟨hx, hl⟩
  · rintro ⟨hx, hl⟩
    rcases (NodeView.lnk_empty rfl x).mp hx with rfl | rfl <;>
      · change optikIsLocked optikInit = true at hl
        rw [optikInit_unlocked] at hl
        cases hl
  · intro op l r hres
    rw [returned_holds hres]
    exact Set.notMem_empty x
  · intro es c t op l i s' l' hr ht hres hstep hfew hQ
    have hok := step_ok_of_run hr ht hres (Option.some.inj hstep) hfew
    exact hok.act.held (wf_of_run hr) x hQ.1 hQ.2

/-- A removed node is never written again. -/
theorem removed_of_run {es₂ : Trace T (Call K V) (Answer V) (OptikHeap T K V) (Pc T V)}
    {c₂ : Config T (Call K V) (OptikHeap T K V) (Pc T V)}
    (hr : (program T K V).RunIf Few es c) (hr₂ : (program T K V).RunIf Few (es₂ ++ es) c₂) {x : Ptr T}
    (hx : Pub ((program T K V).seen es) x) (hl : ¬ Lnk c.shared x) :
    Pub ((program T K V).seen (es₂ ++ es)) x ∧ ¬ Lnk c₂.shared x ∧
      c₂.shared.mem x = c.shared.mem x := by
  induction es₂ generalizing c₂ with
  | nil =>
    have : c₂.shared = c.shared := by rw [← hr₂.last_eq, ← hr.last_eq]; rfl
    rw [this]
    exact ⟨hx, hl, rfl⟩
  | cons p es₂ ih =>
    cases hr₂ with
    | @step _ c₁ e _ hr₁ hst hfew =>
      obtain ⟨h1, h2, h3⟩ := ih hr₁
      refine ⟨h1.insert _, ?_⟩
      cases hst with
      | call => exact ⟨h2, h3⟩
      | @tau t op l s' l' i ht hres hstep =>
        have hok := step_ok_of_run hr₁ ht hres (Option.some.inj hstep) hfew
        obtain ⟨h4, h5⟩ := hok.act.removed (wf_of_run hr₁) x h1 h2
        exact ⟨h5, h4.trans h3⟩
      | ret => exact ⟨h2, h3⟩

/-- `length()` -/
def length (s : OptikHeap T K V) (fuel : ℕ) : Option ℕ := (view T K V).length (fun _ => true) s fuel

/-- **With no call running, `length` returns the successful inserts less the
successful removes.** -/
theorem length_eq [DecidableEq V] [Fintype T] (hr : (program T K V).RunIf Few es c)
    (hidle : ∀ t, c.threads t = none) :
    ∃ m n, (∀ fuel ≥ n, length c.shared fuel = some m) ∧ (m : ℤ) = inserts es - removes es := by
  have hw := wf_of_run hr
  obtain ⟨n, hn⟩ := hw.listed.length_eq (fun _ => true) hw.tail_next fun _ _ => by simp
  refine ⟨_, n, hn, ?_⟩
  rw [← (LinearizableIf.size linearizable (fun k v hp => hp.2.2 k v rfl) hr hidle).2]
  exact_mod_cast (mapOf_ncard hw.listed.unique).symm

end run

end LinkedListOptik

end Ascylib
