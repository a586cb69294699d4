/-
# The list with lock coupling

`src/algorithms/linkedlist_coupling.h` with a lock in each node, one local
state for each access to shared memory. Every call walks with the locks of two
neighbours, taking the next one before it gives the last one back. `remove`
frees the node it unlinked at once.

A call waits for a lock only with the lock of the node before it, so the node
stays linked while it waits, and nobody waits for a lock of an unlinked node.
A node's address names its allocation: an access to a freed node is told from
one to a later node at the same place.

Key theorem: `coupling_list`.
-/
import Ascylib.MarkedList
import Ascylib.Concur.Locks

set_option linter.unusedSectionVars false

namespace Ascylib

open Concur Chain

/-- `ll_marked_delete(x)`: the node is given back at once. -/
def MarkedHeap.llMarkedDelete {T K V : Type*} (s : MarkedHeap T K V) (x : Ptr T) : MarkedHeap T K V :=
  { s with freed := x :: s.freed }

namespace LinkedListCoupling

variable {T K V : Type*} [DecidableEq T] [LinearOrder K]

/-- Where a call is, with the local variables that are live there. -/
inductive Pc (T V : Type*) where
  /-- `LOCK(ND_GET_LOCK(head))` -/
  | lockHead
  /-- `LOCK(ND_GET_LOCK(curr->next))`, in the loop `LOCK(ND_GET_LOCK(next->next))`: the load -/
  | lockLoad (curr : Ptr T)
  /-- and the lock -/
  | lockNext (curr x : Ptr T)
  /-- `next = curr->next`, with the lock of `x` taken -/
  | next (curr x : Ptr T)
  /-- `next->key < key` -/
  | lt (curr next : Ptr T)
  /-- `UNLOCK(ND_GET_LOCK(curr)); curr = next` -/
  | unlockPrev (curr next : Ptr T)
  /-- `key == next->key` -/
  | eq (curr next : Ptr T)
  /-- `search`: `res = next->val` -/
  | searchVal (curr next : Ptr T)
  /-- `insert`: `newnode = initialize_ll_marked(key, val, next)` -/
  | insertNew (curr next : Ptr T)
  /-- `curr->next = newnode` -/
  | insertStore (curr next newnode : Ptr T)
  /-- `remove`: `res = next->val` -/
  | removeVal (curr next : Ptr T)
  /-- the load of `curr->next = next->next` -/
  | removeNext (curr next : Ptr T) (res : V)
  /-- and the store -/
  | removeStore (curr next nnext : Ptr T) (res : V)
  /-- `UNLOCK(ND_GET_LOCK(next))` -/
  | removeUnlockNext (curr next : Ptr T) (res : V)
  /-- `ll_marked_delete(next)` -/
  | removeDelete (curr next : Ptr T) (res : V)
  /-- `UNLOCK(ND_GET_LOCK(curr))` -/
  | removeUnlockCurr (curr : Ptr T) (res : V)
  /-- `UNLOCK(ND_GET_LOCK(curr))`, on the way out with `r` -/
  | unlockCurr (curr next : Ptr T) (r : Answer V)
  /-- `UNLOCK(ND_GET_LOCK(next))` -/
  | unlockNext (next : Ptr T) (r : Answer V)
  /-- `return r` -/
  | done (r : Answer V)

variable [Zero V]

/-- What follows `key == next->key`. -/
def found (curr next : Ptr T) : Call K V → Bool → Pc T V
  | .search _, true => .searchVal curr next
  | .search _, false => .unlockCurr curr next (.val 0)
  | .insert _ _, true => .unlockCurr curr next (.flag false)
  | .insert _ _, false => .insertNew curr next
  | .remove _, true => .removeVal curr next
  | .remove _, false => .unlockCurr curr next (.val 0)

/-- The next access to shared memory of thread `t`, and what follows from it;
`none` while it waits for a lock. -/
def step (t : T) (s : MarkedHeap T K V) (op : Call K V) :
    Pc T V → Option (MarkedHeap T K V × Pc T V)
  | .lockHead => (s.acquire t .head).map fun s' => (s', .lockLoad .head)
  | .lockLoad curr => some (s, .lockNext curr (s.next curr))
  | .lockNext curr x => (s.acquire t x).map fun s' => (s', .next curr x)
  | .next curr _ => some (s, .lt curr (s.next curr))
  | .lt curr next =>
    some (s, if s.key next < op.key then .unlockPrev curr next else .eq curr next)
  | .unlockPrev curr next => some (s.release curr, .lockLoad next)
  | .eq curr next => some (s, found curr next op (decide (op.key = s.key next)))
  | .searchVal curr next => some (s, .unlockCurr curr next (.val (s.val next)))
  | .insertNew curr next =>
    match op with
    | .insert key val =>
      let (s', newnode) := s.allocateLlMarked t key val next
      some (s', .insertStore curr next newnode)
    | _ => some (s, .insertNew curr next)
  | .insertStore curr next newnode =>
    some (s.setNext curr newnode, .unlockCurr curr next (.flag true))
  | .removeVal curr next => some (s, .removeNext curr next (s.val next))
  | .removeNext curr next res => some (s, .removeStore curr next (s.next next) res)
  | .removeStore curr next nnext res => some (s.setNext curr nnext, .removeUnlockNext curr next res)
  | .removeUnlockNext curr next res => some (s.release next, .removeDelete curr next res)
  | .removeDelete curr next res => some (s.llMarkedDelete next, .removeUnlockCurr curr res)
  | .removeUnlockCurr curr res => some (s.release curr, .done (.val res))
  | .unlockCurr curr next r => some (s.release curr, .unlockNext next r)
  | .unlockNext next r => some (s.release next, .done r)
  | .done r => some (s, .done r)

def result : Pc T V → Option (Answer V)
  | .done r => some r
  | _ => none

/-- The list, for clients that keep to keys strictly between the sentinels'
and values other than 0. -/
def program (T K V : Type*) [DecidableEq T] [LinearOrder K] [BoundedOrder K] [Zero V] :
    Program T (Call K V) (Answer V) (MarkedHeap T K V) (Pc T V) Unit where
  init := MarkedHeap.empty
  pre := Client
  start _ := .lockHead
  step _ t s op l := step t s op l
  result := result

/-! ### The nodes and locks a step works on -/

/-- The node that the next step reads, writes, locks, unlocks or frees. -/
def accesses : Pc T V → Option (Ptr T)
  | .lockHead => some .head
  | .lockLoad curr => some curr
  | .lockNext _ x => some x
  | .next curr _ => some curr
  | .lt _ next => some next
  | .unlockPrev curr _ => some curr
  | .eq _ next => some next
  | .searchVal _ next => some next
  | .insertNew _ _ => none
  | .insertStore curr _ _ => some curr
  | .removeVal _ next => some next
  | .removeNext _ next _ => some next
  | .removeStore curr _ _ _ => some curr
  | .removeUnlockNext _ next _ => some next
  | .removeDelete _ next _ => some next
  | .removeUnlockCurr curr _ => some curr
  | .unlockCurr curr _ _ => some curr
  | .unlockNext next _ => some next
  | .done _ => none

/-- The lock that the next step asks for. -/
def wants : Pc T V → Option (Ptr T)
  | .lockHead => some .head
  | .lockNext _ x => some x
  | _ => none

/-- The nodes whose locks the call holds. -/
def holds : Pc T V → List (Ptr T)
  | .lockHead => []
  | .lockLoad curr => [curr]
  | .lockNext curr _ => [curr]
  | .next curr x => [curr, x]
  | .lt curr next => [curr, next]
  | .unlockPrev curr next => [curr, next]
  | .eq curr next => [curr, next]
  | .searchVal curr next => [curr, next]
  | .insertNew curr next => [curr, next]
  | .insertStore curr next _ => [curr, next]
  | .removeVal curr next => [curr, next]
  | .removeNext curr next _ => [curr, next]
  | .removeStore curr next _ _ => [curr, next]
  | .removeUnlockNext curr next _ => [curr, next]
  | .removeDelete curr _ _ => [curr]
  | .removeUnlockCurr curr _ => [curr]
  | .unlockCurr curr next _ => [curr, next]
  | .unlockNext next _ => [next]
  | .done _ => []

/-- The node that the call has unlinked and not freed yet. -/
def removed : Pc T V → Option (Ptr T)
  | .removeUnlockNext _ next _ => some next
  | .removeDelete _ next _ => some next
  | _ => none

/-- The locks that are held and asked for. -/
def locks (c : Config T (Call K V) (MarkedHeap T K V) (Pc T V)) : LockTable T (Ptr T) where
  wants t := (c.threads t).bind fun f => wants f.2
  holds t := {x | ∃ op l, c.threads t = some (op, l) ∧ x ∈ holds l}

theorem locks_wants {c : Config T (Call K V) (MarkedHeap T K V) (Pc T V)} {t : T} {op : Call K V}
    {l : Pc T V} (h : c.threads t = some (op, l)) : (locks c).wants t = wants l := by
  simp [locks, h]

section accesses

variable {t : T} {s s₁ s₂ s' : MarkedHeap T K V} {op : Call K V} {l l' : Pc T V}

/-- A step changes no other node's contents, its own new node aside. -/
theorem writes_accessed (h : step t s op l = some (s', l')) {x : Ptr T} (hx : accesses l ≠ some x)
    (hn : x ≠ .node t (s.count t)) : s'.mem x = s.mem x := by
  have hne : ∀ {y}, accesses l = some y → x ≠ y := by
    rintro y hy rfl
    exact hx hy
  cases l
  case lockHead =>
    obtain ⟨s₁, h1, h2⟩ := Option.map_eq_some_iff.mp h
    cases h2
    obtain ⟨-, rfl⟩ := MarkedHeap.acquire_eq_some h1
    exact s.mem_modify_of_ne _ x _ (hne rfl)
  case lockNext =>
    obtain ⟨s₁, h1, h2⟩ := Option.map_eq_some_iff.mp h
    cases h2
    obtain ⟨-, rfl⟩ := MarkedHeap.acquire_eq_some h1
    exact s.mem_modify_of_ne _ x _ (hne rfl)
  case insertNew =>
    cases op <;> cases h
    · rfl
    · exact s.mem_allocate_of_ne x _ t hn
    · rfl
  all_goals cases h
  case insertStore => exact s.mem_setNext_of_ne _ x _ (hne rfl)
  case removeStore => exact s.mem_setNext_of_ne _ x _ (hne rfl)
  all_goals first
    | rfl
    | exact s.mem_modify_of_ne _ x _ (hne rfl)

/-- What a step does next depends on no other node's contents. -/
theorem reads_accessed (hc : s₁.count = s₂.count)
    (h : ∀ x, accesses l = some x → s₁.mem x = s₂.mem x) :
    (step t s₁ op l).map Prod.snd = (step t s₂ op l).map Prod.snd := by
  cases l
  case lockHead =>
    have he : s₁.lock .head = s₂.lock .head := congrArg LlMarked.lock (h _ rfl)
    simp only [step, MarkedHeap.acquire, he]
    split <;> rfl
  case lockNext curr x =>
    have he : s₁.lock x = s₂.lock x := congrArg LlMarked.lock (h _ rfl)
    simp only [step, MarkedHeap.acquire, he]
    split <;> rfl
  case lt curr next =>
    have he : s₁.key next = s₂.key next := congrArg LlMarked.key (h _ rfl)
    simp only [step, he]
    rfl
  case eq curr next =>
    have he : s₁.key next = s₂.key next := congrArg LlMarked.key (h _ rfl)
    simp only [step, he]
    rfl
  case insertNew => cases op <;> simp [step, MarkedHeap.allocateLlMarked, Memory.allocate, hc]
  all_goals first
    | rfl
    | simp [step, MarkedHeap.val, MarkedHeap.next, h _ rfl]

end accesses

/-! ### The list -/

/-- The nodes of the list; no linked node is dead. -/
abbrev view (T K V : Type*) : NodeView (LlMarked T K V) T K V where
  key := LlMarked.key
  val := LlMarked.val
  next := LlMarked.next
  dead _ := False

/-- The node is linked from the head. -/
abbrev Lnk (s : MarkedHeap T K V) (x : Ptr T) : Prop := (view T K V).Lnk s x

/-- The node has been linked. -/
abbrev Pub (S : Set (MarkedHeap T K V)) (x : Ptr T) : Prop := (view T K V).Pub S x

/-- The map the list stands for. -/
noncomputable abbrev absMap (s : MarkedHeap T K V) : K → Option V := (view T K V).absMap s

/-- A new node with key `k` and value `v`, in front of `q`. -/
abbrev Private (t : T) (S : Set (MarkedHeap T K V)) (s : MarkedHeap T K V) (k : K) (v : V)
    (q n : Ptr T) : Prop :=
  (view T K V).Private t S s ⟨k, v, q, false, none⟩ n

/-- A well-formed list, in a run that went through the memories `S`. Freed
nodes have been unlinked. -/
structure Wf [BoundedOrder K] (S : Set (MarkedHeap T K V)) (s : MarkedHeap T K V) : Prop where
  listed : (view T K V).Listed S s
  freed : ∀ x ∈ s.freed, Pub S x ∧ ¬ Lnk s x

/-- The writes of thread `t`, that has unlinked and not yet freed `g`. -/
inductive Act (t : T) (S : Set (MarkedHeap T K V)) (s : MarkedHeap T K V) (g : Option (Ptr T)) :
    MarkedHeap T K V → Prop
  | skip : Act t S s g s
  | alloc (k : K) (v : V) (q : Ptr T) : Act t S s g (s.allocateLlMarked t k v q).1
  | lock {x : Ptr T} {o : Option T} : Pub S x → s.lock x = none ∨ s.lock x = some t →
      Act t S s g (s.modify x fun n => { n with lock := o })
  | link {p n : Ptr T} {k : K} {v : V} : s.lock p = some t → Lnk s p →
      Private t S s k v (s.next p) n → s.key p < k → k < s.key (s.next p) → Act t S s g (s.setNext p n)
  | unlink {p c : Ptr T} : s.lock p = some t → s.lock c = some t → Lnk s p → s.next p = c →
      p ≠ .tail → c ≠ .tail → Act t S s g (s.setNext p (s.next c))
  | delete {x : Ptr T} : g = some x → Pub S x → ¬ Lnk s x → Act t S s g (s.llMarkedDelete x)

/-- What a step of thread `t` leaves alone. -/
structure Keeps (t : T) (S : Set (MarkedHeap T K V)) (g : Option (Ptr T)) (s s' : MarkedHeap T K V) :
    Prop where
  key : ∀ x, Pub S x → s'.key x = s.key x
  locked : ∀ u, u ≠ t → ∀ x, Pub S x → s.lock x = some u → s'.mem x = s.mem x ∧ (Lnk s x → Lnk s' x)
  gone : ∀ x, Pub S x → ¬ Lnk s x → ¬ Lnk s' x
  freed : ∀ x ∈ s'.freed, x ∈ s.freed ∨ g = some x
  others : (view T K V).Others t S s s'

variable [BoundedOrder K] {t u : T} {S W : Set (MarkedHeap T K V)} {s s' : MarkedHeap T K V}
  {g : Option (Ptr T)} {op : Call K V} {k : K} {p c : Ptr T}

theorem setNext_swing (s : MarkedHeap T K V) (p q : Ptr T) :
    (view T K V).Swing s (s.setNext p q) p q where
  other x hx := s.mem_setNext_of_ne p x q hx
  key := s.key_setNext p p q
  val := s.val_setNext p p q
  dead := Iff.rfl
  next := s.next_setNext_self p q
  count := rfl

theorem lock_key (s : MarkedHeap T K V) (x y : Ptr T) (o : Option T) :
    MarkedHeap.key (s.modify x fun n => { n with lock := o }) y = s.key y :=
  s.field_modify x y LlMarked.key fun _ => rfl

theorem lock_next (s : MarkedHeap T K V) (x y : Ptr T) (o : Option T) :
    MarkedHeap.next (s.modify x fun n => { n with lock := o }) y = s.next y :=
  s.field_modify x y LlMarked.next fun _ => rfl

theorem lock_same (S : Set (MarkedHeap T K V)) (s : MarkedHeap T K V) (x : Ptr T) (o : Option T) :
    (view T K V).Same S s (s.modify x fun n => { n with lock := o }) :=
  ⟨fun y _ => lock_key s x y o, fun y _ => s.field_modify x y LlMarked.val fun _ => rfl,
    fun y _ _ => lock_next s x y o, fun _ => le_rfl⟩

theorem delete_same (S : Set (MarkedHeap T K V)) (s : MarkedHeap T K V) (x : Ptr T) :
    (view T K V).Same S s (s.llMarkedDelete x) :=
  NodeView.same_of_mem (fun _ _ => rfl) fun _ => le_rfl

theorem linking {n : Ptr T} {v : V} (hp : Lnk s p) (hn : Private t S s k v (s.next p) n)
    (h1 : s.key p < k) (h2 : k < s.key (s.next p)) :
    (view T K V).Linking t S s (s.setNext p n) ⟨k, v, s.next p, false, none⟩ p n :=
  ⟨setNext_swing s p n, hn, hp, rfl, h1, h2⟩

theorem unlink_ne (w : Wf S s) (hp : Lnk s p) (hpc : s.next p = c) (hpt : p ≠ .tail)
    (hct : c ≠ .tail) : p ≠ c := by
  obtain ⟨-, -, h, -⟩ := NodeView.Swing.unlink_chain w.listed hp hpt hpc hct
  rintro rfl
  exact lt_irrefl _ h

/-- Unlinking a node removes its key from the map. -/
theorem unlink_absMap (w : Wf S s) (hp : Lnk s p) (hpc : s.next p = c) (hpt : p ≠ .tail)
    (hct : c ≠ .tail) (hch : c ≠ .head) : absMap s (s.key c) = some (s.val c) ∧
      absMap (s.setNext p (s.next c)) = Function.update (absMap s) (s.key c) none := by
  have hl : (view T K V).Live s c := ⟨hpc ▸ hp.next hpt, id, hch, hct⟩
  exact ⟨w.listed.absMap_past w.listed.mem hl,
    (setNext_swing s p (s.next c)).unlink_absMap w.listed hp hpt hpc hct hl⟩

namespace Act

variable (w : Wf S s) (h : Act t S s g s')

include w h

theorem count (u : T) : s.count u ≤ s'.count u := by
  cases h
  case alloc k v q => exact s.count_le_allocate _ t u
  all_goals exact le_rfl

theorem listed : (view T K V).Listed (insert s' S) s' := by
  cases h with
  | skip => rw [Set.insert_eq_of_mem w.listed.mem]; exact w.listed
  | alloc => exact (w.listed.allocate t _).1.listed w.listed
  | lock => exact (lock_same S s _ _).listed w.listed
  | link _ hp hn h1 h2 => exact (linking hp hn h1 h2).listed w.listed
  | unlink _ _ hp hpc hpt hct => exact (setNext_swing s _ _).unlink_listed w.listed hp hpt hpc hct
  | delete => exact (delete_same S s _).listed w.listed

/-- Which nodes are linked after it. -/
theorem lnk (x : Ptr T) : (Lnk s' x → Lnk s x ∨ ¬ Pub S x) ∧
    (Lnk s x → Lnk s' x ∨ s.lock x = some t) := by
  cases h with
  | skip => exact ⟨Or.inl, Or.inl⟩
  | alloc k v q =>
    have := (w.listed.allocate t ⟨k, v, q, false, none⟩).1.lnk w.listed x
    exact ⟨fun h => Or.inl (this.mp h), fun h => Or.inl (this.mpr h)⟩
  | @lock y o =>
    have := (lock_same S s y o).lnk w.listed x
    exact ⟨fun h => Or.inl (this.mp h), fun h => Or.inl (this.mpr h)⟩
  | link _ hp hn h1 h2 =>
    have := (linking hp hn h1 h2).lnk w.listed x
    refine ⟨fun h => (this.mp h).imp_right ?_, fun h => Or.inl (this.mpr (Or.inl h))⟩
    rintro rfl
    exact hn.1
  | @unlink p c _ hlk hp hpc hpt hct =>
    have := (setNext_swing s p (s.next c)).unlink_lnk w.listed hp hpt hpc hct x
    refine ⟨fun h => Or.inl (this.mp h).1, fun h => ?_⟩
    by_cases hx : x = c
    · exact Or.inr (hx ▸ hlk)
    · exact Or.inl (this.mpr ⟨h, hx⟩)
  | @delete y =>
    have := (delete_same S s y).lnk w.listed x
    exact ⟨fun h => Or.inl (this.mp h), fun h => Or.inl (this.mpr h)⟩

theorem pub (x : Ptr T) (hx : Pub (insert s' S) x) : Pub S x ∨ ∃ i, x = .node t i := by
  cases h with
  | skip => rw [Set.insert_eq_of_mem w.listed.mem] at hx; exact Or.inl hx
  | alloc k v q =>
    exact Or.inl (((w.listed.allocate t ⟨k, v, q, false, none⟩).1.pub w.listed x).mp hx)
  | lock => exact Or.inl (((lock_same S s _ _).pub w.listed x).mp hx)
  | link _ hp hn h1 h2 =>
    refine (((linking hp hn h1 h2).pub w.listed x).mp hx).imp_right ?_
    rintro rfl
    obtain ⟨-, -, i, rfl, -⟩ := hn
    exact ⟨i, rfl⟩
  | unlink _ _ hp hpc hpt hct =>
    exact Or.inl (((setNext_swing s _ _).unlink_pub w.listed hp hpt hpc hct x).mp hx)
  | delete => exact Or.inl (((delete_same S s _).pub w.listed x).mp hx)

/-- What it does to one node. -/
theorem node (x : Ptr T) (ha : x ≠ .node t (s.count t)) : s'.key x = s.key x ∧
    (s'.mem x = s.mem x ∨ Pub S x ∧ (s.lock x = none ∨ s.lock x = some t)) := by
  cases h with
  | skip => exact ⟨rfl, Or.inl rfl⟩
  | alloc k v q =>
    have hm := s.mem_allocate_of_ne x ⟨k, v, q, false, none⟩ t ha
    exact ⟨congrArg LlMarked.key hm, Or.inl hm⟩
  | @lock y o hy hl =>
    refine ⟨s.field_modify y x LlMarked.key fun _ => rfl, ?_⟩
    by_cases hx : x = y
    · subst hx; exact Or.inr ⟨hy, hl⟩
    · exact Or.inl (s.mem_modify_of_ne y x _ hx)
  | @link p n _ _ hl hp =>
    refine ⟨s.key_setNext p x n, ?_⟩
    by_cases hx : x = p
    · subst hx; exact Or.inr ⟨w.listed.pub_lnk hp, Or.inr hl⟩
    · exact Or.inl (s.mem_setNext_of_ne p x n hx)
  | @unlink p c hl _ hp =>
    refine ⟨s.key_setNext p x _, ?_⟩
    by_cases hx : x = p
    · subst hx; exact Or.inr ⟨w.listed.pub_lnk hp, Or.inr hl⟩
    · exact Or.inl (s.mem_setNext_of_ne p x _ hx)
  | delete => exact ⟨rfl, Or.inl rfl⟩

theorem keeps : Keeps t S g s s' where
  key x hx := (h.node w x fun he => w.listed.not_pub_next t (he ▸ hx)).1
  locked u hu x hx hl := by
    refine ⟨?_, fun hlk => ((h.lnk w x).2 hlk).resolve_right fun h => ?_⟩
    · refine (h.node w x fun he => w.listed.not_pub_next t (he ▸ hx)).2.resolve_right ?_
      rintro ⟨-, h | h⟩ <;> rw [hl] at h <;> cases h
      exact hu rfl
    · rw [hl] at h
      exact hu (Option.some.inj h)
  gone x hx hl hl' := ((h.lnk w x).1 hl').elim hl fun h => h hx
  freed x hx := by
    cases h
    case delete y hg _ _ =>
      rcases List.mem_cons.mp hx with rfl | hx
      · exact Or.inr hg
      · exact Or.inl hx
    all_goals exact Or.inl hx
  others := by
    refine ⟨fun u i hu hp => ⟨?_, fun hp' => ?_⟩, h.count w⟩
    · refine (h.node w _ ?_).2.resolve_right fun h => hp h.1
      rintro ⟨⟩; exact hu rfl
    · rcases h.pub w _ hp' with h1 | ⟨j, h1⟩
      · exact hp h1
      · cases h1; exact hu rfl

theorem wf : Wf (insert s' S) s' where
  listed := h.listed w
  freed x hx := by
    have hx : Pub S x ∧ ¬ Lnk s x := by
      cases h
      case delete y _ h1 h2 =>
        rcases List.mem_cons.mp hx with rfl | hx
        · exact ⟨h1, h2⟩
        · exact w.freed x hx
      all_goals exact w.freed x hx
    exact ⟨hx.1.insert s', (h.keeps w).gone x hx.1 hx.2⟩

end Act

/-! ### What holds at each point of a call -/

/-- Thread `t` holds the lock of the linked node `x`. -/
structure Held (t : T) (s : MarkedHeap T K V) (x : Ptr T) : Prop where
  lnk : Lnk s x
  lock : s.lock x = some t

/-- And `x` is to the left of the key. -/
structure Left (t : T) (s : MarkedHeap T K V) (k : K) (x : Ptr T) : Prop extends Held t s x where
  lt : s.key x < k

/-- Thread `t` holds the locks of two neighbours, the first of them to the left
of the key. -/
structure Pair (t : T) (s : MarkedHeap T K V) (k : K) (p c : Ptr T) : Prop where
  left : Left t s k p
  next : s.next p = c
  lock : s.lock c = some t

/-- And the second is not. -/
structure Found (t : T) (s : MarkedHeap T K V) (k : K) (p c : Ptr T) : Prop extends Pair t s k p c where
  le : k ≤ s.key c

/-- A node that has been unlinked and not freed. -/
structure Gone (S : Set (MarkedHeap T K V)) (s : MarkedHeap T K V) (x : Ptr T) : Prop where
  pub : Pub S x
  lnk : ¬ Lnk s x
  freed : x ∉ s.freed

/-- The assertion at each local state, for thread `t` in call `op`, in a run
through the memories `S`. -/
def At (t : T) (S : Set (MarkedHeap T K V)) (s : MarkedHeap T K V) (op : Call K V) : Pc T V → Prop
  | .lockHead => True
  | .lockLoad curr => Left t s op.key curr
  | .lockNext curr x => Left t s op.key curr ∧ s.next curr = x
  | .next curr x => Pair t s op.key curr x
  | .lt curr next => Pair t s op.key curr next
  | .unlockPrev curr next => Pair t s op.key curr next ∧ s.key next < op.key
  | .eq curr next => Found t s op.key curr next
  | .searchVal curr next => (∃ k, op = .search k) ∧ Found t s op.key curr next ∧ s.key next = op.key
  | .insertNew curr next => (∃ k v, op = .insert k v) ∧ Found t s op.key curr next ∧
      op.key < s.key next
  | .insertStore curr next newnode => ∃ k v, op = .insert k v ∧ Found t s k curr next ∧
      k < s.key next ∧ Private t S s k v next newnode
  | .removeVal curr next => (∃ k, op = .remove k) ∧ Found t s op.key curr next ∧ s.key next = op.key
  | .removeNext curr next res => (∃ k, op = .remove k) ∧ Found t s op.key curr next ∧
      s.key next = op.key ∧ s.val next = res
  | .removeStore curr next nnext res => (∃ k, op = .remove k) ∧ Found t s op.key curr next ∧
      s.key next = op.key ∧ s.val next = res ∧ s.next next = nnext
  | .removeUnlockNext curr next _ => Held t s curr ∧ Gone S s next ∧ s.lock next = some t
  | .removeDelete curr next _ => Held t s curr ∧ Gone S s next
  | .removeUnlockCurr curr _ => Held t s curr
  | .unlockCurr curr next _ => Held t s curr ∧ Held t s next ∧ curr ≠ next
  | .unlockNext next _ => Held t s next
  | .done _ => True

section stable

variable (hk : Keeps t S g s s') (w : Wf S s) (hu : u ≠ t)

include hk w hu

theorem Held.mem_eq {x : Ptr T} (h : Held u s x) : s'.mem x = s.mem x :=
  (hk.locked u hu x (w.listed.pub_lnk h.lnk) h.lock).1

theorem Held.step {x : Ptr T} (h : Held u s x) : Held u s' x :=
  ⟨(hk.locked u hu x (w.listed.pub_lnk h.lnk) h.lock).2 h.lnk,
    (congrArg LlMarked.lock (h.mem_eq hk w hu)).trans h.lock⟩

theorem Left.step (h : Left u s k p) : Left u s' k p :=
  ⟨h.toHeld.step hk w hu, by rw [hk.key p (w.listed.pub_lnk h.lnk)]; exact h.lt⟩

theorem Left.next_eq (h : Left u s k p) : s'.next p = s.next p :=
  congrArg LlMarked.next (h.mem_eq hk w hu)

omit hk hu in
theorem Pair.held (h : Pair u s k p c) : Held u s c :=
  ⟨h.next ▸ h.left.lnk.next (w.listed.ne_tail_of_lt h.left.lt), h.lock⟩

theorem Pair.step (h : Pair u s k p c) : Pair u s' k p c :=
  ⟨h.left.step hk w hu, (h.left.next_eq hk w hu).trans h.next, ((h.held w).step hk w hu).lock⟩

theorem Found.step (h : Found u s k p c) : Found u s' k p c :=
  ⟨h.toPair.step hk w hu, by rw [hk.key c (w.listed.pub_lnk (h.held w).lnk)]; exact h.le⟩

omit hk hu in
/-- A step of the call itself that leaves the linked nodes alone. -/
theorem Found.congr (h : Found t s k p c) (hs : (view T K V).Same S s s')
    (hm : ∀ x, Pub S x → s'.mem x = s.mem x) : Found t s' k p c := by
  have hp := w.listed.pub_lnk h.left.lnk
  have hc := w.listed.pub_lnk (h.held w).lnk
  exact ⟨⟨⟨⟨(hs.lnk w.listed p).mpr h.left.lnk, (congrArg LlMarked.lock (hm p hp)).trans h.left.lock⟩,
    (congrArg LlMarked.key (hm p hp)).trans_lt h.left.lt⟩, (congrArg LlMarked.next (hm p hp)).trans h.next,
    (congrArg LlMarked.lock (hm c hc)).trans h.lock⟩, h.le.trans_eq (congrArg LlMarked.key (hm c hc)).symm⟩

omit w hu in
theorem Gone.step {x : Ptr T} (h : Gone S s x) (hx : g ≠ some x) : Gone (insert s' S) s' x :=
  ⟨h.pub.insert s', hk.gone x h.pub h.lnk, fun hf => (hk.freed x hf).elim h.freed hx⟩

end stable

/-- A step of another thread keeps the assertion. -/
theorem At.step {l : Pc T V} (h : At u S s op l) (w : Wf S s) (hu : u ≠ t) (hk : Keeps t S g s s')
    (hg : ∀ x, removed l = some x → g ≠ some x) : At u (insert s' S) s' op l := by
  have hkey : ∀ {k p c}, Found u s k p c → s'.key c = s.key c := fun hf =>
    hk.key _ (w.listed.pub_lnk (hf.held w).lnk)
  have hval : ∀ {k p c}, Found u s k p c → s'.val c = s.val c := fun hf =>
    congrArg LlMarked.val ((hf.held w).mem_eq hk w hu)
  cases l with
  | lockHead => trivial
  | lockLoad curr => exact Left.step hk w hu h
  | lockNext curr x => exact ⟨h.1.step hk w hu, (h.1.next_eq hk w hu).trans h.2⟩
  | next curr x => exact Pair.step hk w hu h
  | lt curr next => exact Pair.step hk w hu h
  | unlockPrev curr next =>
    obtain ⟨h1, h2⟩ := h
    exact ⟨h1.step hk w hu, by rw [hk.key _ (w.listed.pub_lnk (h1.held w).lnk)]; exact h2⟩
  | eq curr next => exact Found.step hk w hu h
  | searchVal curr next =>
    obtain ⟨h1, h2, h3⟩ := h
    exact ⟨h1, h2.step hk w hu, (hkey h2).trans h3⟩
  | insertNew curr next =>
    obtain ⟨h1, h2, h3⟩ := h
    exact ⟨h1, h2.step hk w hu, by rw [hkey h2]; exact h3⟩
  | insertStore curr next newnode =>
    obtain ⟨k, v, h1, h2, h3, h4⟩ := h
    exact ⟨k, v, h1, h2.step hk w hu, by rw [hkey h2]; exact h3, h4.step hu hk.others⟩
  | removeVal curr next =>
    obtain ⟨h1, h2, h3⟩ := h
    exact ⟨h1, h2.step hk w hu, (hkey h2).trans h3⟩
  | removeNext curr next res =>
    obtain ⟨h1, h2, h3, h4⟩ := h
    exact ⟨h1, h2.step hk w hu, (hkey h2).trans h3, (hval h2).trans h4⟩
  | removeStore curr next nnext res =>
    obtain ⟨h1, h2, h3, h4, h5⟩ := h
    exact ⟨h1, h2.step hk w hu, (hkey h2).trans h3, (hval h2).trans h4,
      (congrArg LlMarked.next ((h2.held w).mem_eq hk w hu)).trans h5⟩
  | removeUnlockNext curr next res =>
    obtain ⟨h1, h2, h3⟩ := h
    exact ⟨h1.step hk w hu, h2.step hk (hg _ rfl),
      (congrArg LlMarked.lock (hk.locked u hu next h2.pub h3).1).trans h3⟩
  | removeDelete curr next res => exact ⟨h.1.step hk w hu, h.2.step hk (hg _ rfl)⟩
  | removeUnlockCurr curr res => exact Held.step hk w hu h
  | unlockCurr curr next r => exact ⟨h.1.step hk w hu, h.2.1.step hk w hu, h.2.2⟩
  | unlockNext next r => exact Held.step hk w hu h
  | done r => trivial

theorem At.gone {l : Pc T V} (h : At t S s op l) {x : Ptr T} (hx : removed l = some x) : Gone S s x := by
  cases l
  case removeUnlockNext => cases hx; exact h.2.1
  case removeDelete => cases hx; exact h.2
  all_goals cases hx

/-- **No step works on a freed node.** -/
theorem At.access {l : Pc T V} (h : At t S s op l) (w : Wf S s) {x : Ptr T}
    (hx : accesses l = some x) : x ∉ s.freed := by
  have hlnk : ∀ {y}, Lnk s y → y ∉ s.freed := fun hy hf => (w.freed _ hf).2 hy
  cases l <;> cases hx
  case lockHead => exact hlnk linked_head
  case lockLoad => exact hlnk h.lnk
  case lockNext => exact hlnk (h.2 ▸ h.1.lnk.next (w.listed.ne_tail_of_lt h.1.lt))
  case next => exact hlnk h.left.lnk
  case lt => exact hlnk (h.held w).lnk
  case unlockPrev => exact hlnk h.1.left.lnk
  case eq => exact hlnk (h.held w).lnk
  case searchVal => exact hlnk (h.2.1.held w).lnk
  case insertStore => obtain ⟨k, v, -, h1, -⟩ := h; exact hlnk h1.left.lnk
  case removeVal => exact hlnk (h.2.1.held w).lnk
  case removeNext => exact hlnk (h.2.1.held w).lnk
  case removeStore => exact hlnk h.2.1.left.lnk
  case removeUnlockNext => exact h.2.1.freed
  case removeDelete => exact h.2.freed
  case removeUnlockCurr => exact hlnk h.lnk
  case unlockCurr => exact hlnk h.1.lnk
  case unlockNext => exact hlnk h.lnk

/-- A call asks for the lock after those it holds. -/
theorem At.ordered {l : Pc T V} (h : At t S s op l) (w : Wf S s) {x y : Ptr T} (hx : wants l = some x)
    (hy : y ∈ holds l) : s.key y < s.key x := by
  cases l <;> cases hx
  case lockHead => cases hy
  case lockNext =>
    obtain rfl := List.mem_singleton.mp hy
    obtain ⟨h1, rfl⟩ := h
    exact w.listed.sorted.step _ h1.lnk (w.listed.ne_tail_of_lt h1.lt)

/-! ### The steps -/

/-- The result of a call that has taken effect. -/
def lin : Pc T V → Option (Answer V)
  | .removeUnlockNext _ _ res => some (.val res)
  | .removeDelete _ _ res => some (.val res)
  | .removeUnlockCurr _ res => some (.val res)
  | .unlockCurr _ _ r => some r
  | .unlockNext _ r => some r
  | .done r => some r
  | _ => none

/-- What a step does: it is one of the writes, it establishes the next
assertion, the node it unlinks was linked, and it changes the map only where
the call takes effect. -/
structure StepOk (t : T) (S : Set (MarkedHeap T K V)) (s : MarkedHeap T K V) (op : Call K V)
    (l : Pc T V) (s' : MarkedHeap T K V) (l' : Pc T V) : Prop where
  act : Act t S s (removed l) s'
  next : At t (insert s' S) s' op l'
  gone : ∀ x, removed l' = some x → removed l = some x ∨ Lnk s x
  point : (lin l' = lin l ∧ absMap s' = absMap s) ∨ (lin l = none ∧ ∃ r, lin l' = some r ∧
    (mapObject K V).apply op (absMap s) = (absMap s', r))

section step

variable (w : Wf S s)

include w

/-- The key is not in the list. -/
theorem Found.absent (h : Found t s k p c) (hlt : k < s.key c) : absMap s k = none :=
  mapOf_eq_none.mpr fun _ hy => w.listed.sorted.absent h.left.lnk (w.listed.ne_tail_of_lt h.left.lt)
    h.left.lt (by rw [show (view T K V).succ s p = c from h.next]; exact hlt) hy.1

/-- The key is in the list. -/
theorem Found.present (h : Found t s k p c) (he : s.key c = k) (hb : ⊥ < k) (ht : k < ⊤) :
    c ≠ .head ∧ c ≠ .tail ∧ absMap s k = some (s.val c) := by
  have hch : c ≠ .head := w.listed.ne_head_of_lt (show ⊥ < s.key c by rw [he]; exact hb)
  have hct : c ≠ .tail := w.listed.ne_tail_of_lt (show s.key c < ⊤ by rw [he]; exact ht)
  exact ⟨hch, hct, he ▸ w.listed.absMap_past w.listed.mem ⟨(h.held w).lnk, id, hch, hct⟩⟩

theorem Pair.ne (h : Pair t s k p c) : p ≠ c := by
  rintro rfl
  have := w.listed.sorted.step p h.left.lnk (w.listed.ne_tail_of_lt h.left.lt)
  rw [show (view T K V).succ s p = p from h.next] at this
  exact lt_irrefl _ this

/-- A step that only reads, and takes effect or not. -/
theorem StepOk.read {l l' : Pc T V} (h : At t S s op l') (hr : removed l' = removed l)
    (hl : lin l' = lin l ∨ lin l = none ∧ ∃ r, lin l' = some r ∧
      (mapObject K V).apply op (absMap s) = (absMap s, r)) : StepOk t S s op l s l' := by
  refine ⟨.skip, ?_, fun x hx => Or.inl (hr ▸ hx), hl.imp_left fun h => ⟨h, rfl⟩⟩
  rw [Set.insert_eq_of_mem w.listed.mem]
  exact h

/-- Taking a lock or giving it back. -/
theorem lock_absMap (x : Ptr T) (o : Option T) :
    absMap (s.modify x fun n => { n with lock := o }) = absMap s :=
  (lock_same S s x o).absMap w.listed fun _ _ => Iff.rfl

/-- The locks of other nodes. -/
theorem Held.unlock {x y : Ptr T} (h : Held t s x) (o : Option T) (hne : x ≠ y) :
    Held t (s.modify y fun n => { n with lock := o }) x :=
  ⟨((lock_same S s y o).lnk w.listed x).mpr h.lnk,
    (congrArg LlMarked.lock (s.mem_modify_of_ne y x _ hne)).trans h.lock⟩

theorem Held.lock_self {x : Ptr T} (h : Lnk s x) :
    Held t (s.modify x fun n => { n with lock := some t }) x :=
  ⟨((lock_same S s x (some t)).lnk w.listed x).mpr h, by simp [MarkedHeap.lock]⟩

theorem Left.unlock {x y : Ptr T} (h : Left t s k x) (o : Option T) (hne : x ≠ y) :
    Left t (s.modify y fun n => { n with lock := o }) k x :=
  ⟨h.toHeld.unlock w o hne, by rw [lock_key]; exact h.lt⟩

theorem Gone.lock {x y : Ptr T} (h : Gone S s x) (o : Option T) :
    Gone (insert (s.modify y fun n => { n with lock := o }) S)
      (s.modify y fun n => { n with lock := o }) x :=
  ⟨h.pub.insert _, fun hl => h.lnk (((lock_same S s y o).lnk w.listed x).mp hl), h.freed⟩

variable (hb : ⊥ < op.key) (ht : op.key < ⊤)

include hb ht

theorem step_ok_walk {l l' : Pc T V} (h : At t S s op l) (hst : step t s op l = some (s', l'))
    (hl : l = .lockHead ∨ (∃ p, l = .lockLoad p) ∨ (∃ p x, l = .lockNext p x) ∨
      (∃ p x, l = .next p x) ∨ (∃ p c, l = .lt p c) ∨ (∃ p c, l = .unlockPrev p c) ∨
      ∃ p c, l = .eq p c) : StepOk t S s op l s' l' := by
  rcases hl with rfl | ⟨p, rfl⟩ | ⟨p, x, rfl⟩ | ⟨p, x, rfl⟩ | ⟨p, c, rfl⟩ | ⟨p, c, rfl⟩ | ⟨p, c, rfl⟩
  · obtain ⟨s₁, h1, h2⟩ := Option.map_eq_some_iff.mp hst
    cases h2
    obtain ⟨hfree, rfl⟩ := MarkedHeap.acquire_eq_some h1
    refine ⟨.lock (w.listed.pub_lnk linked_head) (Or.inl hfree),
      ⟨.lock_self w linked_head, ?_⟩, nofun, Or.inl ⟨rfl, lock_absMap w _ _⟩⟩
    rw [lock_key]
    exact lt_of_eq_of_lt w.listed.head_key hb
  · cases hst
    exact .read w ⟨h, rfl⟩ rfl (Or.inl rfl)
  · obtain ⟨h1, rfl⟩ := h
    obtain ⟨s₁, h2, h3⟩ := Option.map_eq_some_iff.mp hst
    cases h3
    obtain ⟨hfree, rfl⟩ := MarkedHeap.acquire_eq_some h2
    have hlnk : Lnk s (s.next p) := h1.lnk.next (w.listed.ne_tail_of_lt h1.lt)
    have hne : p ≠ s.next p := fun he => by
      have := h1.lock
      rw [he, hfree] at this
      cases this
    exact ⟨.lock (w.listed.pub_lnk hlnk) (Or.inl hfree), ⟨h1.unlock w _ hne, lock_next s _ p _,
      (Held.lock_self w hlnk).lock⟩, nofun, Or.inl ⟨rfl, lock_absMap w _ _⟩⟩
  · cases hst
    exact .read w (show Pair t s op.key p (s.next p) from ⟨h.left, rfl, h.next.symm ▸ h.lock⟩) rfl
      (Or.inl rfl)
  · by_cases hlt : s.key c < op.key
    · simp only [step, hlt, if_true] at hst
      cases hst
      exact .read w ⟨h, hlt⟩ rfl (Or.inl rfl)
    · simp only [step, hlt, if_false] at hst
      cases hst
      exact .read w (show Found t s op.key p c from ⟨h, not_lt.mp hlt⟩) rfl (Or.inl rfl)
  · obtain ⟨h1, h2⟩ := h
    cases hst
    have hc : Left t s op.key c := ⟨h1.held w, h2⟩
    exact ⟨.lock (w.listed.pub_lnk h1.left.lnk) (Or.inr h1.left.lock), hc.unlock w none (h1.ne w).symm,
      nofun, Or.inl ⟨rfl, lock_absMap w _ _⟩⟩
  · cases hst
    have h : Found t s op.key p c := h
    have hout : ∀ r, At t S s op (.unlockCurr p c r) := fun r =>
      ⟨h.left.toHeld, h.held w, h.ne w⟩
    by_cases he : op.key = s.key c
    · obtain ⟨-, -, hm⟩ := h.present w he.symm hb ht
      rw [decide_eq_true he]
      rcases op with k | ⟨k, v⟩ | k
      · exact .read w ⟨⟨k, rfl⟩, h, he.symm⟩ rfl (Or.inl rfl)
      · exact .read w (hout _) rfl (Or.inr ⟨rfl, _, rfl, apply_insert_some hm⟩)
      · exact .read w ⟨⟨k, rfl⟩, h, he.symm⟩ rfl (Or.inl rfl)
    · have hlt := lt_of_le_of_ne h.le he
      have hm := h.absent w hlt
      rw [decide_eq_false he]
      rcases op with k | ⟨k, v⟩ | k
      · exact .read w (hout _) rfl (Or.inr ⟨rfl, _, rfl, apply_search_none hm⟩)
      · exact .read w ⟨⟨k, v, rfl⟩, h, hlt⟩ rfl (Or.inl rfl)
      · exact .read w (hout _) rfl (Or.inr ⟨rfl, _, rfl, apply_remove_none hm⟩)

omit hb ht in
theorem step_ok_unlock {l l' : Pc T V} (h : At t S s op l) (hst : step t s op l = some (s', l'))
    (hl : (∃ p c r, l = .removeUnlockNext p c r) ∨ (∃ p c r, l = .removeDelete p c r) ∨
      (∃ p r, l = .removeUnlockCurr p r) ∨ (∃ p c r, l = .unlockCurr p c r) ∨
      ∃ c r, l = .unlockNext c r) : StepOk t S s op l s' l' := by
  rcases hl with ⟨p, c, r, rfl⟩ | ⟨p, c, r, rfl⟩ | ⟨p, r, rfl⟩ | ⟨p, c, r, rfl⟩ | ⟨c, r, rfl⟩ <;> cases hst
  · obtain ⟨h1, h2, h3⟩ := h
    have hne : p ≠ c := by
      rintro rfl
      exact h2.lnk h1.lnk
    exact ⟨.lock h2.pub (Or.inr h3), ⟨h1.unlock w none hne, h2.lock w none⟩, fun x hx => Or.inl hx,
      Or.inl ⟨rfl, lock_absMap w _ _⟩⟩
  · obtain ⟨h1, h2⟩ := h
    exact ⟨.delete rfl h2.pub h2.lnk, ⟨h1.lnk, h1.lock⟩, nofun, Or.inl ⟨rfl, rfl⟩⟩
  · have h : Held t s p := h
    exact ⟨.lock (w.listed.pub_lnk h.lnk) (Or.inr h.lock), trivial, nofun,
      Or.inl ⟨rfl, lock_absMap w _ _⟩⟩
  · obtain ⟨h1, h2, h3⟩ := h
    exact ⟨.lock (w.listed.pub_lnk h1.lnk) (Or.inr h1.lock), h2.unlock w none h3.symm, nofun,
      Or.inl ⟨rfl, lock_absMap w _ _⟩⟩
  · have h : Held t s c := h
    exact ⟨.lock (w.listed.pub_lnk h.lnk) (Or.inr h.lock), trivial, nofun,
      Or.inl ⟨rfl, lock_absMap w _ _⟩⟩

theorem step_ok_update {l l' : Pc T V} (h : At t S s op l) (hst : step t s op l = some (s', l'))
    (hl : (∃ p c, l = .searchVal p c) ∨ (∃ p c, l = .insertNew p c) ∨
      (∃ p c n, l = .insertStore p c n) ∨ (∃ p c, l = .removeVal p c) ∨
      (∃ p c r, l = .removeNext p c r) ∨ ∃ p c n r, l = .removeStore p c n r) :
    StepOk t S s op l s' l' := by
  rcases hl with ⟨p, c, rfl⟩ | ⟨p, c, rfl⟩ | ⟨p, c, n, rfl⟩ | ⟨p, c, rfl⟩ | ⟨p, c, r, rfl⟩ |
    ⟨p, c, n, r, rfl⟩
  · obtain ⟨⟨k, rfl⟩, h2, h3⟩ := h
    obtain ⟨-, -, hm⟩ := h2.present w h3 hb ht
    cases hst
    exact .read w ⟨h2.left.toHeld, h2.held w, h2.ne w⟩ rfl (Or.inr ⟨rfl, _, rfl, apply_search_some hm⟩)
  · obtain ⟨⟨k, v, rfl⟩, h2, h3⟩ := h
    cases hst
    obtain ⟨hs, hm, hp⟩ := w.listed.allocate t ⟨k, v, c, false, none⟩
    refine ⟨.alloc k v c, ⟨k, v, rfl, h2.congr w hs hm, ?_, hp⟩, nofun,
      Or.inl ⟨rfl, hs.absMap w.listed fun _ _ => Iff.rfl⟩⟩
    exact lt_of_lt_of_eq h3 (congrArg LlMarked.key (hm c (w.listed.pub_lnk (h2.held w).lnk))).symm
  · obtain ⟨k, v, rfl, h2, h3, h4⟩ := h
    cases hst
    obtain rfl := h2.next
    have hlink := linking h2.left.lnk h4 h2.left.lt h3
    obtain ⟨hn, habs⟩ := hlink.absMap w.listed id
    refine ⟨.link h2.left.lock h2.left.lnk h4 h2.left.lt h3, ⟨⟨?_, ?_⟩, ⟨?_, ?_⟩, h2.ne w⟩, nofun,
      Or.inr ⟨rfl, _, rfl, ?_⟩⟩
    · exact (hlink.lnk w.listed p).mpr (Or.inl h2.left.lnk)
    · rw [MarkedHeap.lock_setNext]
      exact h2.left.lock
    · exact (hlink.lnk w.listed _).mpr (Or.inl (h2.held w).lnk)
    · rw [MarkedHeap.lock_setNext]
      exact h2.lock
    · rw [apply_insert_none hn]
      exact congrArg (·, _) habs.symm
  · obtain ⟨h1, h2, h3⟩ := h
    cases hst
    exact .read w ⟨h1, h2, h3, rfl⟩ rfl (Or.inl rfl)
  · obtain ⟨h1, h2, h3, h4⟩ := h
    cases hst
    exact .read w ⟨h1, h2, h3, h4, rfl⟩ rfl (Or.inl rfl)
  · obtain ⟨⟨k, rfl⟩, h2, h3, rfl, rfl⟩ := h
    cases hst
    obtain ⟨hch, hct, -⟩ := h2.present w h3 hb ht
    have hpt := w.listed.ne_tail_of_lt h2.left.lt
    have hc := (h2.held w).lnk
    obtain ⟨hm, habs⟩ := unlink_absMap w h2.left.lnk h2.next hpt hct hch
    have hlnk := (setNext_swing s p (s.next c)).unlink_lnk w.listed h2.left.lnk hpt h2.next hct
    rw [show s.key c = k from h3] at hm habs
    refine ⟨.unlink h2.left.lock h2.lock h2.left.lnk h2.next hpt hct, ⟨⟨?_, ?_⟩, ⟨?_, ?_, ?_⟩, ?_⟩, ?_,
      Or.inr ⟨rfl, _, rfl, ?_⟩⟩
    · exact (hlnk p).mpr ⟨h2.left.lnk, h2.ne w⟩
    · rw [MarkedHeap.lock_setNext]
      exact h2.left.lock
    · exact (w.listed.pub_lnk hc).insert _
    · exact fun hl => ((hlnk c).mp hl).2 rfl
    · exact fun hf => (w.freed c hf).2 hc
    · rw [MarkedHeap.lock_setNext]
      exact h2.lock
    · rintro x ⟨⟩
      exact Or.inr hc
    · rw [apply_remove_some hm, ← habs]

/-- **Every step is one of the writes, and leads to the next assertion.** -/
theorem step_ok {l l' : Pc T V} (h : At t S s op l) (hr : result l = none)
    (hst : step t s op l = some (s', l')) : StepOk t S s op l s' l' := by
  cases l
  case lockHead | lockLoad | lockNext | next | lt | unlockPrev | eq =>
    exact step_ok_walk w hb ht h hst (by simp)
  case searchVal | insertNew | insertStore | removeVal | removeNext | removeStore =>
    exact step_ok_update w hb ht h hst (by simp)
  case removeUnlockNext | removeDelete | removeUnlockCurr | unlockCurr | unlockNext =>
    exact step_ok_unlock w h hst (by simp)
  case done => cases hr

end step

/-! ### Runs -/

variable [Nontrivial K]

theorem Wf.initial : Wf {(MarkedHeap.empty : MarkedHeap T K V)} MarkedHeap.empty where
  listed := NodeView.Listed.initial rfl rfl rfl
  freed := nofun

/-- The proof outline. No two calls have unlinked the same node. -/
def outline : Outline (program T K V) (fun _ _ _ _ => True) fun _ _ => False where
  glob es s := Wf ((program T K V).seen es) s
  loc t S _ s op l := Client op ∧ At t S s op l
  pair f g := ∀ x, removed f.2 = some x → removed g.2 ≠ some x
  pair_symm h x hg hf := h x hf hg
  init := Wf.initial
  frame := by
    intro es s e th hw _
    rwa [Program.seen, Set.insert_eq_of_mem hw.listed.mem]
  call _ _ _ hp := ⟨hp, trivial⟩
  call_pair := nofun
  tau := by
    intro es c t op l i s' l' hr ht hres hstep _ hw ⟨hc, hat⟩
    have hok := step_ok hw hc.1 hc.2.1 hat hres hstep
    refine ⟨hok.act.wf hw, ⟨hc, hok.next⟩, fun u op₁ l₁ hu hcu ⟨hc₁, hat₁⟩ hp =>
      ⟨⟨hc₁, hat₁.step hw hu (hok.act.keeps hw) fun x hx hg => hp x hg hx⟩, fun x hx hx₁ => ?_⟩⟩
    rcases hok.gone x hx with h | h
    · exact hp x h hx₁
    · exact (hat₁.gone hx₁).lnk h

section run

variable {es : Trace T (Call K V) (Answer V) (MarkedHeap T K V) (Pc T V)}
  {c : Config T (Call K V) (MarkedHeap T K V) (Pc T V)}

theorem linearizable [Fintype T] : Linearizable (mapObject K V) (program T K V) absMap :=
  Concur.linearizable <| outline.points (fun _ _ => lin) (NodeView.absMap_empty rfl)
    (fun _ _ => rfl)
    (fun {es c t op l i s' l'} hr hh ht hres hstep _ => by
      obtain ⟨hc, hat⟩ := hh.loc t op l ht
      exact ⟨(step_ok hh.glob hc.1 hc.2.1 hat hres hstep).point, fun _ _ _ _ _ => rfl⟩)
    fun {es c t op l r} hr hh ht hres => by
      cases l <;> cases hres
      exact Or.inl rfl

omit [BoundedOrder K] [Nontrivial K] in
theorem lock_modify (s : MarkedHeap T K V) (x y : Ptr T) (o : Option T) :
    MarkedHeap.lock (s.modify y fun n => { n with lock := o }) x = if x = y then o else s.lock x := by
  split
  · rename_i h
    rw [h]
    simp [MarkedHeap.lock]
  · exact congrArg LlMarked.lock (s.mem_modify_of_ne y x _ ‹_›)

omit [Nontrivial K] in
/-- A lock that is held after a step is held by its call or was held by another. -/
theorem step_holds {l l' : Pc T V} (h : At t S s op l) (hst : step t s op l = some (s', l'))
    {x : Ptr T} (hx : s'.lock x ≠ none) : x ∈ holds l' ∨ x ∉ holds l ∧ s.lock x ≠ none := by
  have hread : s'.lock x = s.lock x → holds l' = holds l → x ∈ holds l' ∨ x ∉ holds l ∧
      s.lock x ≠ none := fun h1 h2 => by
    rw [h2]
    exact (em _).imp_right fun h => ⟨h, h1 ▸ hx⟩
  have htake : ∀ y, s' = s.modify y (fun n => { n with lock := some t }) →
      (∀ z, z ∈ holds l' ↔ z = y ∨ z ∈ holds l) →
      x ∈ holds l' ∨ x ∉ holds l ∧ s.lock x ≠ none := by
    rintro y rfl hz
    rw [lock_modify] at hx
    rw [hz]
    by_cases hxy : x = y
    · exact Or.inl (Or.inl hxy)
    · rw [if_neg hxy] at hx
      exact (em (x ∈ holds l)).imp Or.inr fun h => ⟨h, hx⟩
  have hgive : ∀ y, s' = s.release y → (∀ z, z ∈ holds l → z = y ∨ z ∈ holds l') →
      x ∈ holds l' ∨ x ∉ holds l ∧ s.lock x ≠ none := by
    rintro y rfl hz
    rw [MarkedHeap.release, lock_modify] at hx
    by_cases hxy : x = y
    · exact absurd (if_pos hxy) hx
    · rw [if_neg hxy] at hx
      exact (em (x ∈ holds l)).imp (fun h => (hz x h).resolve_left hxy) fun h => ⟨h, hx⟩
  cases l
  case lockHead =>
    obtain ⟨s₁, h1, h2⟩ := Option.map_eq_some_iff.mp hst
    cases h2
    exact htake _ (MarkedHeap.acquire_eq_some h1).2 (by simp [holds])
  case lockNext =>
    obtain ⟨s₁, h1, h2⟩ := Option.map_eq_some_iff.mp hst
    cases h2
    exact htake _ (MarkedHeap.acquire_eq_some h1).2 (by simp [holds, or_comm])
  case next curr y =>
    cases hst
    exact hread rfl (by rw [holds, holds, Pair.next h])
  case lt curr next =>
    by_cases hlt : s.key next < op.key
    · simp only [step, hlt, if_true] at hst
      cases hst
      exact hread rfl rfl
    · simp only [step, hlt, if_false] at hst
      cases hst
      exact hread rfl rfl
  case eq curr next =>
    cases hst
    refine hread rfl ?_
    rcases op with k | ⟨k, v⟩ | k <;> by_cases he : k = s.key next <;>
      simp [Call.key, he, found, holds]
  case insertNew curr next =>
    rcases op with k | ⟨k, v⟩ | k <;> cases hst
    · exact hread rfl rfl
    · refine hread ?_ rfl
      by_cases hn : x = .node t (s.count t)
      · subst hn
        exact absurd (congrArg LlMarked.lock (s.mem_allocate_self ⟨k, v, next, false, none⟩ t)) hx
      · exact congrArg LlMarked.lock (s.mem_allocate_of_ne x _ t hn)
    · exact hread rfl rfl
  all_goals cases hst
  case insertStore => exact hread (MarkedHeap.lock_setNext _ _ _ _) rfl
  case removeStore => exact hread (MarkedHeap.lock_setNext _ _ _ _) rfl
  all_goals first
    | exact hread rfl rfl
    | exact hgive _ rfl (by simp [holds])

/-- Whoever asks for a lock that is taken asks for one that a call holds. -/
theorem waitsFor_of_locked (hr : (program T K V).Run es c) {l : Pc T V} {x : Ptr T}
    (ht : c.threads t = some (op, l)) (hw : wants l = some x) (hx : c.shared.lock x ≠ none) :
    ∃ u, (locks c).WaitsFor t u := by
  obtain ⟨u, op₁, l₁, hu, hx₁⟩ := hr.responsible (Q := fun s => s.lock x ≠ none)
    (A := fun _ l => x ∈ holds l) (fun h => h (by cases x <;> rfl))
    (fun {op l r} hres hx => by cases l <;> cases hres; cases hx)
    (fun {es c t op l i s' l'} hr ht _ hstep _ hQ =>
      step_holds ((outline.holds hr).loc t op l ht).2 hstep hQ) hx
  exact ⟨u, x, (locks_wants ht).trans hw, op₁, l₁, hu, hx₁⟩

/-- A call that cannot take its next step asks for a lock that is taken. -/
theorem wants_of_waits {l : Pc T V} (hres : result l = none) (hst : step t s op l = none) :
    ∃ x, wants l = some x ∧ s.lock x ≠ none := by
  cases l
  case lockHead =>
    refine ⟨.head, rfl, fun h => ?_⟩
    simp [step, MarkedHeap.acquire, h] at hst
  case lockNext curr x =>
    refine ⟨x, rfl, fun h => ?_⟩
    simp [step, MarkedHeap.acquire, h] at hst
  case insertNew => cases op <;> cases hst
  case done => cases hres
  all_goals cases hst

theorem ordered (hr : (program T K V).Run es c) : (locks c).Ordered c.shared.key := by
  intro t x hx y hy
  obtain ⟨op, l, ht, hy⟩ := hy
  rw [locks_wants ht] at hx
  exact ((outline.holds hr).loc t op l ht).2.ordered (outline.holds hr).glob hx hy

/-- **Some unfinished call can go on.** -/
theorem progress [Finite T] (hr : (program T K V).Run es c) (ht : c.threads t ≠ none) :
    ∃ u, c.threads u ≠ none ∧ ¬ (program T K V).Waits c u := by
  obtain ⟨u, hu, hfree⟩ := (ordered hr).exists_free t
  refine ⟨u, ?_, ?_⟩
  · rcases hu.cases_tail with rfl | ⟨v, -, x, -, op, l, hu, -⟩
    · exact ht
    · rw [hu]
      exact Option.some_ne_none _
  · rintro ⟨op, l, hu, hres, hst⟩
    obtain ⟨x, hx, hlk⟩ := wants_of_waits hres (hst ())
    obtain ⟨v, hv⟩ := waitsFor_of_locked hr hu hx hlk
    exact hfree v hv

end run

/-- **The list with lock coupling is a map.** Its calls are linearizable, no
step works on a freed node, and as long as there are unfinished calls, not all
of them wait. -/
theorem coupling_list [Fintype T] :
    Linearizable (mapObject K V) (program T K V) absMap ∧
    ∀ es c, (program T K V).Run es c →
      (∀ t op l x, c.threads t = some (op, l) → accesses l = some x → x ∉ c.shared.freed) ∧
      ((∃ t, c.threads t ≠ none) → ∃ t, c.threads t ≠ none ∧ ¬ (program T K V).Waits c t) :=
  ⟨linearizable, fun _ _ hr => ⟨fun t op l _ ht hx =>
    ((outline.holds hr).loc t op l ht).2.access (outline.holds hr).glob hx,
    fun ⟨_, ht⟩ => progress hr ht⟩⟩

/-- Three threads, and keys 1 to 8. -/
theorem coupling_list_three :
    Linearizable (mapObject (Fin 10) ℕ) (program (Fin 3) (Fin 10) ℕ) absMap :=
  coupling_list.1

end LinkedListCoupling

end Ascylib
