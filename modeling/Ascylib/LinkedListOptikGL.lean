/-
# The list with one OPTIK word

`src/algorithms/linkedlist_optik_gl.h` with integer words, one local state for
each access to shared memory. `insert` and `remove` read the word, walk to the
neighbours of the key, and take the lock with the version they read; `search`,
a duplicate found by `insert` and a missing key found by `remove` validate
nothing. A removed node is neither marked nor locked: it is never written
again because only the holder of the lock writes `next`, to linked nodes.

Key theorem: `optik_gl_linearizable`.
-/
import Ascylib.ListHeap
import Ascylib.LlSimple
import Ascylib.OptikWord

set_option linter.unusedSectionVars false

namespace Ascylib

open Concur Chain

/-- The list object: its nodes, and `lock`. -/
structure GlList (T K V : Type*) where
  nodes : Heap T K V
  lock : OptikT

namespace GlList

variable {T K V : Type*} [DecidableEq T]

/-- `CAS_U64(&lock, old, new) == old`: whether it succeeded, and the list after it. -/
def casLock (s : GlList T K V) (old new : OptikT) : Bool × GlList T K V :=
  if s.lock = old then (true, { s with lock := new }) else (false, s)

/-- `x->next = q`. -/
def setNext (s : GlList T K V) (x q : Ptr T) : GlList T K V :=
  { s with nodes := s.nodes.setNext x q.ref }

theorem casLock_true {s s' : GlList T K V} {old new : OptikT} (h : s.casLock old new = (true, s')) :
    s.lock = old ∧ s' = { s with lock := new } := by
  unfold casLock at h
  split at h
  · cases h; exact ⟨‹_›, rfl⟩
  · cases h

theorem casLock_false {s s' : GlList T K V} {old new : OptikT}
    (h : s.casLock old new = (false, s')) : s' = s := by
  unfold casLock at h
  split at h <;> cases h
  rfl

end GlList

namespace LinkedListOptikGL

variable {T K V : Type*} [DecidableEq T] [LinearOrder K]

/-- Where a call is, with the local variables that are live there. -/
inductive Pc (T V : Type*) where
  /-- `search`: `curr->key < key` -/
  | searchLt (curr : Ptr T)
  /-- `curr = curr->next` -/
  | searchNext (curr : Ptr T)
  /-- `curr->key == key` -/
  | searchEq (curr : Ptr T)
  /-- `res = curr->val` -/
  | searchVal (curr : Ptr T)
  /-- `insert`: `version = lock` -/
  | insertVersion
  /-- `pred = head; curr = head->next` -/
  | insertFirst (version : OptikT)
  /-- `pred = curr; curr = curr->next` -/
  | insertNext (version : OptikT) (curr : Ptr T)
  /-- `curr->key < key` -/
  | insertLt (version : OptikT) (pred curr : Ptr T)
  /-- `curr->key == key` -/
  | insertEq (version : OptikT) (pred curr : Ptr T)
  /-- `newnode = allocate_ll_simple(key, val, curr)` -/
  | insertAlloc (version : OptikT) (pred curr : Ptr T)
  /-- `optik_trylock_version(&lock, version)`: the test -/
  | insertTry (version : OptikT) (pred newnode : Ptr T)
  /-- and the CAS -/
  | insertCas (version : OptikT) (pred newnode : Ptr T)
  /-- `ll_simple_release(newnode); goto restart` -/
  | insertFree (newnode : Ptr T)
  /-- `pred->next = newnode` -/
  | insertStore (pred newnode : Ptr T)
  /-- `optik_unlock(&lock)`: the load -/
  | insertUnlock
  /-- and the store -/
  | insertUnlocked (ver : OptikT)
  /-- `remove`: `version = lock` -/
  | removeVersion
  /-- `pred = head; curr = head->next` -/
  | removeFirst (version : OptikT)
  /-- `pred = curr; curr = curr->next` -/
  | removeNext (version : OptikT) (curr : Ptr T)
  /-- `curr->key < key` -/
  | removeLt (version : OptikT) (pred curr : Ptr T)
  /-- `curr->key != key` -/
  | removeNe (version : OptikT) (pred curr : Ptr T)
  /-- `optik_trylock_version(&lock, version)`: the test -/
  | removeTry (version : OptikT) (pred curr : Ptr T)
  /-- and the CAS -/
  | removeCas (version : OptikT) (pred curr : Ptr T)
  /-- the load of `pred->next = curr->next` -/
  | removeCnxt (pred curr : Ptr T)
  /-- and the store -/
  | removeStore (pred curr cnxt : Ptr T)
  /-- `optik_unlock(&lock)`: the load -/
  | removeUnlock (curr : Ptr T)
  /-- and the store -/
  | removeUnlocked (curr : Ptr T) (ver : OptikT)
  /-- `result = curr->val` -/
  | removeVal (curr : Ptr T)
  /-- `ll_simple_release(curr)` -/
  | removeFree (curr : Ptr T) (result : V)
  /-- `return r` from a call that took effect -/
  | done (r : Answer V)
  /-- `return r` from a call that changed nothing -/
  | unchanged (r : Answer V)

variable [Zero V]

def start : Call K V → Pc T V
  | .search _ => .searchLt .head
  | .insert _ _ => .insertVersion
  | .remove _ => .removeVersion

/-- The next access to shared memory of thread `t`, and what follows from it. -/
def step (t : T) (s : GlList T K V) (op : Call K V) : Pc T V → GlList T K V × Pc T V
  | .searchLt curr => (s, if s.nodes.key curr < op.key then .searchNext curr else .searchEq curr)
  | .searchNext curr => (s, .searchLt (s.nodes.succ curr))
  | .searchEq curr => (s, if s.nodes.key curr = op.key then .searchVal curr else .unchanged (.val 0))
  | .searchVal curr => (s, .unchanged (.val (s.nodes.val curr)))
  | .insertVersion => (s, .insertFirst s.lock)
  | .insertFirst version => (s, .insertLt version .head (s.nodes.succ .head))
  | .insertNext version curr => (s, .insertLt version curr (s.nodes.succ curr))
  | .insertLt version pred curr =>
    (s, if s.nodes.key curr < op.key then .insertNext version curr else .insertEq version pred curr)
  | .insertEq version pred curr =>
    (s, if s.nodes.key curr = op.key then .unchanged (.flag false)
      else .insertAlloc version pred curr)
  | .insertAlloc version pred curr =>
    match op with
    | .insert key val =>
      let (nodes, newnode) := s.nodes.allocateLlSimple t key val curr
      ({ s with nodes := nodes }, .insertTry version pred newnode)
    | _ => (s, .insertAlloc version pred curr)
  | .insertTry version pred newnode =>
    (s, if optikOutdated s.lock version then .insertFree newnode
      else .insertCas version pred newnode)
  | .insertCas version pred newnode =>
    match s.casLock version (version + 1) with
    | (true, s') => (s', .insertStore pred newnode)
    | (false, s') => (s', .insertFree newnode)
  | .insertFree newnode => ({ s with nodes := s.nodes.ssmemFree newnode }, .insertVersion)
  | .insertStore pred newnode => (s.setNext pred newnode, .insertUnlock)
  | .insertUnlock => (s, .insertUnlocked s.lock)
  | .insertUnlocked ver => ({ s with lock := ver + 1 }, .done (.flag true))
  | .removeVersion => (s, .removeFirst s.lock)
  | .removeFirst version => (s, .removeLt version .head (s.nodes.succ .head))
  | .removeNext version curr => (s, .removeLt version curr (s.nodes.succ curr))
  | .removeLt version pred curr =>
    (s, if s.nodes.key curr < op.key then .removeNext version curr else .removeNe version pred curr)
  | .removeNe version pred curr =>
    (s, if s.nodes.key curr ≠ op.key then .unchanged (.val 0) else .removeTry version pred curr)
  | .removeTry version pred curr =>
    (s, if optikOutdated s.lock version then .removeVersion else .removeCas version pred curr)
  | .removeCas version pred curr =>
    match s.casLock version (version + 1) with
    | (true, s') => (s', .removeCnxt pred curr)
    | (false, s') => (s', .removeVersion)
  | .removeCnxt pred curr => (s, .removeStore pred curr (s.nodes.succ curr))
  | .removeStore pred curr cnxt => (s.setNext pred cnxt, .removeUnlock curr)
  | .removeUnlock curr => (s, .removeUnlocked curr s.lock)
  | .removeUnlocked curr ver => ({ s with lock := ver + 1 }, .removeVal curr)
  | .removeVal curr => (s, .removeFree curr (s.nodes.val curr))
  | .removeFree curr result =>
    ({ s with nodes := s.nodes.ssmemFree curr }, .done (.val result))
  | .done r => (s, .done r)
  | .unchanged r => (s, .unchanged r)

def result : Pc T V → Option (Answer V)
  | .done r => some r
  | .unchanged r => some r
  | _ => none

/-- The list, for clients that keep to keys strictly between the sentinels'
and values other than 0. -/
def program (T K V : Type*) [DecidableEq T] [LinearOrder K] [BoundedOrder K] [Zero V] :
    Program T (Call K V) (Answer V) (GlList T K V) (Pc T V) Unit where
  init := ⟨Heap.empty, optikInit⟩
  pre := Client
  start := start
  step _ t s op l := some (step t s op l)
  result := result

/-! ### The list and its word -/

/-- The nodes of the list; no linked node is dead. -/
abbrev view (T K V : Type*) : NodeView (LlSimple T K V) T K V where
  key := LlSimple.key
  val := LlSimple.val
  next n := n.next.ptr
  dead _ := False

/-- The node is linked from the head. -/
abbrev Lnk (s : GlList T K V) (x : Ptr T) : Prop := (view T K V).Lnk s.nodes x

/-- The nodes at the moments of `S`. -/
def heaps (S : Set (GlList T K V)) : Set (Heap T K V) := GlList.nodes '' S

/-- The node was linked at some moment of `S`. -/
abbrev Pub (S : Set (GlList T K V)) (x : Ptr T) : Prop := (view T K V).Pub (heaps S) x

/-- The map the list stands for. -/
noncomputable abbrev absMap (s : GlList T K V) : K → Option V := (view T K V).absMap s.nodes

/-- The word protects the links. -/
abbrev word (T K V : Type*) [DecidableEq T] : OptikWord (GlList T K V) (Set (Ptr T × Ptr T)) where
  lock := GlList.lock
  data s := {p | Lnk s p.1 ∧ s.nodes.succ p.1 = p.2}

/-- A well-formed list, in a run that went through the lists `S`. -/
structure Wf [BoundedOrder K] (S : Set (GlList T K V)) (s : GlList T K V) : Prop where
  listed : (view T K V).Listed (heaps S) s.nodes
  versioned : (word T K V).Versioned S s

/-- The writes of thread `t`, that holds the lock or not before and after. -/
inductive Act (t : T) (S : Set (GlList T K V)) (s : GlList T K V) : Bool → Bool → GlList T K V → Prop
  | skip {h : Bool} : Act t S s h h s
  | free {h : Bool} (x : Ptr T) : Act t S s h h { s with nodes := s.nodes.ssmemFree x }
  | alloc {h : Bool} (n : LlSimple T K V) : Act t S s h h { s with nodes := (s.nodes.allocate t n).1 }
  | take : optikIsLocked s.lock = false → Act t S s false true { s with lock := s.lock + 1 }
  | unlock : optikIsLocked s.lock = true → s.lock ≠ optikDeleted →
      Act t S s true false { s with lock := s.lock + 1 }
  | link {p n : Ptr T} {k : K} {v : V} : optikIsLocked s.lock = true → Lnk s p →
      (view T K V).Private t (heaps S) s.nodes ⟨k, v, (s.nodes.succ p).ref⟩ n →
      s.nodes.key p < k → k < s.nodes.key (s.nodes.succ p) → Act t S s true true (s.setNext p n)
  | unlink {p c : Ptr T} : optikIsLocked s.lock = true → Lnk s p → s.nodes.succ p = c →
      p ≠ .tail → c ≠ .tail → Act t S s true true (s.setNext p (s.nodes.succ c))

/-- What a step of thread `t`, that holds the lock or not, leaves alone. -/
structure Keeps (t : T) (h : Bool) (S : Set (GlList T K V)) (s s' : GlList T K V) : Prop where
  key : ∀ x, Pub S x → s'.nodes.key x = s.nodes.key x
  val : ∀ x, Pub S x → s'.nodes.val x = s.nodes.val x
  data : h = false → (word T K V).data s' = (word T K V).data s
  locked : h = false → optikIsLocked s.lock = true → s'.lock = s.lock
  touch : (word T K V).Touch s s'
  others : (view T K V).Others t (heaps S) s.nodes s'.nodes

variable [BoundedOrder K] {t u : T} {S W : Set (GlList T K V)} {s s' : GlList T K V} {h h' : Bool}

theorem heaps_insert (s : GlList T K V) (S : Set (GlList T K V)) :
    heaps (insert s S) = insert s.nodes (heaps S) := Set.image_insert_eq

theorem heaps_mono (hW : W ⊆ S) : heaps W ⊆ heaps S := Set.image_mono hW

theorem Lnk.of_data {x : Ptr T} (hd : (word T K V).data s' = (word T K V).data s) :
    (Lnk s' x ↔ Lnk s x) ∧ (Lnk s x → s'.nodes.succ x = s.nodes.succ x) := by
  have hiff : ∀ y, (Lnk s' x ∧ s'.nodes.succ x = y) ↔ (Lnk s x ∧ s.nodes.succ x = y) := fun y =>
    Set.ext_iff.mp hd (x, y)
  have hl : Lnk s' x ↔ Lnk s x :=
    ⟨fun h => ((hiff _).mp ⟨h, rfl⟩).1, fun h => ((hiff _).mpr ⟨h, rfl⟩).1⟩
  exact ⟨hl, fun h => ((hiff _).mpr ⟨h, rfl⟩).2⟩

theorem data_of_same (w : Wf S s) (hs : (view T K V).Same (heaps S) s.nodes s'.nodes) :
    (word T K V).data s' = (word T K V).data s := by
  ext ⟨x, y⟩
  have hl : Lnk s' x ↔ Lnk s x := hs.lnk w.listed x
  show Lnk s' x ∧ s'.nodes.succ x = y ↔ Lnk s x ∧ s.nodes.succ x = y
  rw [hl]
  refine and_congr_right fun hx => ?_
  have hn : s'.nodes.succ x = s.nodes.succ x := hs.next x (w.listed.pub_lnk hx) hx
  rw [hn]

theorem setNext_swing (s : GlList T K V) (p q : Ptr T) :
    (view T K V).Swing s.nodes (s.setNext p q).nodes p q where
  other x hx := Heap.mem_setNext_of_ne s.nodes p x q.ref hx
  key := Heap.key_setNext s.nodes p p q.ref
  val := Heap.val_setNext s.nodes p p q.ref
  dead := Iff.rfl
  next := Heap.succ_setNext_self s.nodes p q.ref
  count := rfl

/-! ### What the writes keep -/

section link

variable {p n : Ptr T} {k : K} {v : V} (w : Wf S s) (hp : Lnk s p)
  (hn : (view T K V).Private t (heaps S) s.nodes ⟨k, v, (s.nodes.succ p).ref⟩ n)
  (h1 : s.nodes.key p < k) (h2 : k < s.nodes.key (s.nodes.succ p))

include w hp hn h1 h2

theorem link_lnk (x : Ptr T) : Lnk (s.setNext p n) x ↔ Lnk s x ∨ x = n :=
  (setNext_swing s p n).link_lnk w.listed hp (w.listed.ne_tail_of_lt h1) hn.1
    (by rw [hn.2.1]; rfl) x

theorem link_pub (x : Ptr T) : (view T K V).Pub (insert (s.setNext p n).nodes (heaps S)) x ↔
    Pub S x ∨ x = n :=
  (setNext_swing s p n).link_pub w.listed hp (w.listed.ne_tail_of_lt h1) hn.1
    (by rw [hn.2.1]; rfl) x

theorem link_listed : (view T K V).Listed (insert (s.setNext p n).nodes (heaps S))
    (s.setNext p n).nodes := by
  obtain ⟨hn1, hn2, i, hi, hc⟩ := hn
  exact (setNext_swing s p n).link_listed w.listed hp (w.listed.ne_tail_of_lt h1) hn1
    (by rw [hn2]; rfl) (by rw [hn2]; exact h1) (by rw [hn2]; exact h2) ⟨t, i, hi, hc⟩

/-- Linking a node adds its key to the map. -/
theorem link_absMap : absMap s k = none ∧
    absMap (s.setNext p n) = Function.update (absMap s) k (some v) := by
  obtain ⟨hn1, hn2, i, hi, -⟩ := hn
  have := (setNext_swing s p n).link_absMap w.listed hp (w.listed.ne_tail_of_lt h1) hn1
    (by rw [hn2]; rfl) (by rw [hn2]; exact h1) (by rw [hn2]; exact h2) id
    (by rw [hi]; exact ⟨nofun, nofun⟩)
  rwa [hn2] at this

end link

section unlink

variable {p c : Ptr T} (w : Wf S s) (hp : Lnk s p) (hpc : s.nodes.succ p = c) (hpt : p ≠ .tail)
  (hct : c ≠ .tail)

include w hp hpc hpt hct

theorem unlink_lnk (x : Ptr T) : Lnk (s.setNext p (s.nodes.succ c)) x ↔ Lnk s x ∧ x ≠ c :=
  (setNext_swing s p (s.nodes.succ c)).unlink_lnk w.listed hp hpt hpc hct x

theorem unlink_pub (x : Ptr T) :
    (view T K V).Pub (insert (s.setNext p (s.nodes.succ c)).nodes (heaps S)) x ↔ Pub S x :=
  (setNext_swing s p (s.nodes.succ c)).unlink_pub w.listed hp hpt hpc hct x

theorem unlink_ne : p ≠ c := by
  obtain ⟨-, -, h, -⟩ := NodeView.Swing.unlink_chain w.listed hp hpt hpc hct
  rintro rfl
  exact lt_irrefl _ h

/-- Unlinking a node removes its key from the map. -/
theorem unlink_absMap (hch : c ≠ .head) :
    absMap s (s.nodes.key c) = some (s.nodes.val c) ∧
      absMap (s.setNext p (s.nodes.succ c)) = Function.update (absMap s) (s.nodes.key c) none := by
  have hl : (view T K V).Live s.nodes c := ⟨hpc ▸ hp.next hpt, id, hch, hct⟩
  exact ⟨w.listed.absMap_past w.listed.mem hl,
    (setNext_swing s p (s.nodes.succ c)).unlink_absMap w.listed hp hpt hpc hct hl⟩

end unlink

namespace Act

variable (w : Wf S s) (a : Act t S s h h' s')

include w a

theorem touch : (word T K V).Touch s s' := by
  cases a with
  | skip => exact .keep rfl rfl
  | free x => exact .keep rfl rfl
  | alloc n => exact .keep rfl (data_of_same w (w.listed.allocate t n).1)
  | take hu => exact .take hu rfl rfl
  | unlock hl hd => exact .unlock hl hd rfl
  | link hl => exact .write hl rfl
  | unlink hl => exact .write hl rfl

theorem listed : (view T K V).Listed (heaps (insert s' S)) s'.nodes := by
  rw [heaps_insert]
  cases a with
  | skip => rw [Set.insert_eq_of_mem w.listed.mem]; exact w.listed
  | free x => exact (NodeView.same_free _ s.nodes x).listed w.listed
  | alloc n => exact (w.listed.allocate t n).1.listed w.listed
  | take => rw [Set.insert_eq_of_mem w.listed.mem]; exact w.listed
  | unlock => rw [Set.insert_eq_of_mem w.listed.mem]; exact w.listed
  | link _ hp hn h1 h2 => exact link_listed w hp hn h1 h2
  | unlink _ hp hpc hpt hct =>
    exact (setNext_swing s _ _).unlink_listed w.listed hp hpt hpc hct

theorem wf : Wf (insert s' S) s' := ⟨a.listed w, w.versioned.step (a.touch w)⟩

theorem keyval (x : Ptr T) (hx : Pub S x) :
    s'.nodes.key x = s.nodes.key x ∧ s'.nodes.val x = s.nodes.val x := by
  cases a with
  | alloc n =>
    have hm : (s.nodes.allocate t n).1.mem x = s.nodes.mem x := (w.listed.allocate t n).2.1 x hx
    exact ⟨congrArg LlSimple.key hm, congrArg LlSimple.val hm⟩
  | link => exact ⟨Heap.key_setNext _ _ x _, Heap.val_setNext _ _ x _⟩
  | unlink => exact ⟨Heap.key_setNext _ _ x _, Heap.val_setNext _ _ x _⟩
  | _ => exact ⟨rfl, rfl⟩

theorem others : (view T K V).Others t (heaps S) s.nodes s'.nodes := by
  have hsame : ∀ {S : Set (Heap T K V)} {s : Heap T K V}, s ∈ S → (view T K V).Others t S s s := by
    intro S s hs
    refine ⟨fun u i _ hx => ⟨rfl, ?_⟩, fun _ => le_rfl⟩
    rwa [Set.insert_eq_of_mem hs]
  cases a with
  | skip => exact hsame w.listed.mem
  | free x =>
    exact ⟨fun u i _ hx => ⟨rfl, by rwa [(NodeView.same_free _ s.nodes x).pub w.listed]⟩,
      fun _ => le_rfl⟩
  | alloc n => exact w.listed.allocate_others t n
  | take => exact hsame w.listed.mem
  | unlock => exact hsame w.listed.mem
  | link _ hp hn h1 h2 =>
    refine NodeView.others_of_pub (fun x hx => ?_) (fun u i hu hx => ?_) fun _ => le_rfl
    · exact Heap.mem_setNext_of_ne s.nodes _ x _ fun he => hx (he ▸ w.listed.pub_lnk hp)
    · rcases (link_pub w hp hn h1 h2 _).mp hx with hx | hx
      · exact hx
      · obtain ⟨-, -, j, hj, -⟩ := hn
        rw [hj] at hx
        cases hx
        exact absurd rfl hu
  | unlink _ hp hpc hpt hct =>
    refine NodeView.others_of_pub (fun x hx => ?_) (fun u i _ hx => ?_) fun _ => le_rfl
    · exact Heap.mem_setNext_of_ne s.nodes _ x _ fun he => hx (he ▸ w.listed.pub_lnk hp)
    · exact (unlink_pub w hp hpc hpt hct _).mp hx

theorem keeps : Keeps t h S s s' where
  key x hx := (a.keyval w x hx).1
  val x hx := (a.keyval w x hx).2
  touch := a.touch w
  others := a.others w
  data hh := by
    cases a with
    | alloc n => exact data_of_same w (w.listed.allocate t n).1
    | unlock => cases hh
    | link => cases hh
    | unlink => cases hh
    | _ => rfl
  locked hh hl := by
    cases a with
    | take hu => rw [hu] at hl; cases hl
    | unlock => cases hh
    | _ => rfl

/-- A node that is not linked after it keeps its `next` word. -/
theorem next_eq (x : Ptr T) (hx : Pub S x) (hl : ¬ Lnk s' x) :
    s'.nodes.next x = s.nodes.next x := by
  cases a with
  | alloc n =>
    have hm : (s.nodes.allocate t n).1.mem x = s.nodes.mem x := (w.listed.allocate t n).2.1 x hx
    exact congrArg LlSimple.next hm
  | link _ hp hn h1 h2 =>
    refine Heap.next_setNext_of_ne _ _ x _ fun he => hl ?_
    rw [link_lnk w hp hn h1 h2, he]
    exact Or.inl hp
  | unlink _ hp hpc hpt hct =>
    refine Heap.next_setNext_of_ne _ _ x _ fun he => hl ?_
    rw [unlink_lnk w hp hpc hpt hct, he]
    exact ⟨hp, unlink_ne w hp hpc hpt hct⟩
  | _ => rfl

theorem tail_next : s'.nodes.next .tail = s.nodes.next .tail := by
  cases a with
  | alloc n => exact congrArg LlSimple.next (s.nodes.mem_allocate_of_ne _ _ _ nofun)
  | link _ hp hn h1 h2 =>
    exact Heap.next_setNext_of_ne _ _ _ _ (Ne.symm (w.listed.ne_tail_of_lt h1))
  | unlink _ hp hpc hpt hct => exact Heap.next_setNext_of_ne _ _ _ _ (Ne.symm hpt)
  | _ => rfl


/-- A removed node stays removed. -/
theorem removed (x : Ptr T) (hx : Pub S x) (hl : ¬ Lnk s x) : ¬ Lnk s' x := by
  cases a with
  | alloc n =>
    show ¬ (view T K V).Lnk (s.nodes.allocate t n).1 x
    rwa [(w.listed.allocate t n).1.lnk w.listed]
  | link _ hp hn h1 h2 =>
    rw [link_lnk w hp hn h1 h2, not_or]
    exact ⟨hl, fun he => hn.1 (he ▸ hx)⟩
  | unlink _ hp hpc hpt hct =>
    rw [unlink_lnk w hp hpc hpt hct]
    exact fun h => hl h.1
  | _ => exact hl

/-- Nodes that were met and are unlinked show what they showed. -/
theorem hindsight (hW : W ⊆ S) (hh : (view T K V).Hind (heaps W) s.nodes) :
    (view T K V).Hind (heaps (insert s' W)) s'.nodes := by
  rw [heaps_insert]
  exact hh.step fun x hx hl => congrArg Ref.ptr (a.next_eq w x (hx.mono (heaps_mono hW)) hl)

end Act

/-! ### What holds at each point of a call -/

/-- The call holds the lock. -/
def holds : Pc T V → Bool
  | .insertStore _ _ | .insertUnlock | .insertUnlocked _ | .removeCnxt _ _ | .removeStore _ _ _ |
    .removeUnlock _ | .removeUnlocked _ _ => true
  | _ => false

/-- The word has been read: the window begins here. -/
def reset (_ : Call K V) : Pc T V → Prop
  | .insertFirst _ | .removeFirst _ => True
  | _ => False

abbrev Walked (W : Set (GlList T K V)) (s : GlList T K V) (k : K) (x : Ptr T) : Prop :=
  (view T K V).Walked (heaps W) s.nodes k x

/-- A node to the left of the key that was linked since the word was read. -/
structure Behind (W : Set (GlList T K V)) (s : GlList T K V) (k : K) (version : OptikT) (pred : Ptr T) :
    Prop where
  met : Pub W pred
  lt : s.nodes.key pred < k
  since : (word T K V).Since W version

/-- `pred->next` was read as `curr` since the word was read. -/
def Read (W : Set (GlList T K V)) (pred curr : Ptr T) : Prop :=
  ∃ s₀ ∈ W, s₀.nodes.succ pred = curr

/-- A new node with key `k` and value `v`, in front of `q`. -/
abbrev Private (t : T) (S : Set (GlList T K V)) (s : GlList T K V) (k : K) (v : V) (q n : Ptr T) :
    Prop :=
  (view T K V).Private t (heaps S) s.nodes ⟨k, v, q.ref⟩ n

/-- The assertion at each local state, for thread `t` in call `op`, in a run
through the lists `S` of which `W` since the word was read. -/
def At (t : T) (S W : Set (GlList T K V)) (s : GlList T K V) (op : Call K V) : Pc T V → Prop
  | .searchLt curr => (∃ k, op = .search k) ∧ Walked W s op.key curr
  | .searchNext curr => (∃ k, op = .search k) ∧ Pub W curr ∧ s.nodes.key curr < op.key
  | .searchEq curr => (∃ k, op = .search k) ∧ Walked W s op.key curr ∧ op.key ≤ s.nodes.key curr
  | .searchVal curr => (∃ k, op = .search k) ∧ Pub W curr ∧ s.nodes.key curr = op.key
  | .insertVersion => ∃ k v, op = .insert k v
  | .insertFirst version => (∃ k v, op = .insert k v) ∧ (word T K V).Since W version
  | .insertNext version curr => (∃ k v, op = .insert k v) ∧ Behind W s op.key version curr
  | .insertLt version pred curr => (∃ k v, op = .insert k v) ∧ Behind W s op.key version pred ∧
      Read W pred curr ∧ Walked W s op.key curr
  | .insertEq version pred curr => (∃ k v, op = .insert k v) ∧ Behind W s op.key version pred ∧
      Read W pred curr ∧ Walked W s op.key curr ∧ op.key ≤ s.nodes.key curr
  | .insertAlloc version pred curr => (∃ k v, op = .insert k v) ∧ Behind W s op.key version pred ∧
      Read W pred curr ∧ Pub W curr ∧ op.key < s.nodes.key curr
  | .insertTry version pred newnode => ∃ k v curr, op = .insert k v ∧ Behind W s k version pred ∧
      Read W pred curr ∧ Pub W curr ∧ k < s.nodes.key curr ∧ Private t S s k v curr newnode
  | .insertCas version pred newnode => ∃ k v curr, op = .insert k v ∧ Behind W s k version pred ∧
      Read W pred curr ∧ Pub W curr ∧ k < s.nodes.key curr ∧ Private t S s k v curr newnode ∧
      optikIsLocked version = false
  | .insertFree _ => ∃ k v, op = .insert k v
  | .insertStore pred newnode => ∃ k v, op = .insert k v ∧ optikIsLocked s.lock = true ∧
      Lnk s pred ∧ s.nodes.key pred < k ∧ k < s.nodes.key (s.nodes.succ pred) ∧
      Private t S s k v (s.nodes.succ pred) newnode
  | .insertUnlock => optikIsLocked s.lock = true
  | .insertUnlocked ver => optikIsLocked s.lock = true ∧ s.lock = ver
  | .removeVersion => ∃ k, op = .remove k
  | .removeFirst version => (∃ k, op = .remove k) ∧ (word T K V).Since W version
  | .removeNext version curr => (∃ k, op = .remove k) ∧ Behind W s op.key version curr
  | .removeLt version pred curr => (∃ k, op = .remove k) ∧ Behind W s op.key version pred ∧
      Read W pred curr ∧ Walked W s op.key curr
  | .removeNe version pred curr => (∃ k, op = .remove k) ∧ Behind W s op.key version pred ∧
      Read W pred curr ∧ Walked W s op.key curr ∧ op.key ≤ s.nodes.key curr
  | .removeTry version pred curr => (∃ k, op = .remove k) ∧ Behind W s op.key version pred ∧
      Read W pred curr ∧ Pub W curr ∧ s.nodes.key curr = op.key
  | .removeCas version pred curr => (∃ k, op = .remove k) ∧ Behind W s op.key version pred ∧
      Read W pred curr ∧ Pub W curr ∧ s.nodes.key curr = op.key ∧ optikIsLocked version = false
  | .removeCnxt pred curr => (∃ k, op = .remove k) ∧ optikIsLocked s.lock = true ∧ Lnk s pred ∧
      s.nodes.succ pred = curr ∧ s.nodes.key pred < op.key ∧ s.nodes.key curr = op.key
  | .removeStore pred curr cnxt => (∃ k, op = .remove k) ∧ optikIsLocked s.lock = true ∧
      Lnk s pred ∧ s.nodes.succ pred = curr ∧ s.nodes.key pred < op.key ∧
      s.nodes.key curr = op.key ∧ s.nodes.succ curr = cnxt
  | .removeUnlock curr => optikIsLocked s.lock = true ∧ Pub S curr
  | .removeUnlocked curr ver => optikIsLocked s.lock = true ∧ s.lock = ver ∧ Pub S curr
  | .removeVal curr => Pub S curr
  | .removeFree _ _ => True
  | .done _ => True
  | .unchanged r => ∃ s₀ ∈ W, (mapObject K V).apply op (absMap s₀) = (absMap s₀, r)

variable {op : Call K V} {l : Pc T V}

theorem At.locked (h : At t S W s op l) (hl : holds l = true) : optikIsLocked s.lock = true := by
  cases l
  case insertStore => obtain ⟨k, v, -, h1, -⟩ := h; exact h1
  case insertUnlock => exact h
  case insertUnlocked => exact h.1
  case removeCnxt => exact h.2.1
  case removeStore => exact h.2.1
  case removeUnlock => exact h.1
  case removeUnlocked => exact h.1
  all_goals cases hl

theorem pub_insert {x : Ptr T} (hx : Pub S x) (s' : GlList T K V) : Pub (insert s' S) x := by
  rw [Pub, heaps_insert]
  exact hx.insert s'.nodes

theorem Read.insert {p c : Ptr T} (h : Read W p c) (s' : GlList T K V) : Read (insert s' W) p c :=
  let ⟨s₀, h0, h1⟩ := h
  ⟨s₀, Set.mem_insert_of_mem _ h0, h1⟩

section stable

variable (hk : Keeps t h S s s') (hW : W ⊆ S)

include hk hW

theorem Behind.step {k : K} {v : OptikT} {p : Ptr T} (hb : Behind W s k v p) (hs : s ∈ W) :
    Behind (insert s' W) s' k v p :=
  ⟨pub_insert hb.met s', by rw [hk.key p (hb.met.mono (heaps_mono hW))]; exact hb.lt,
    hb.since.insert hs hk.touch⟩

theorem walked_step {k : K} {x : Ptr T} (hx : Walked W s k x) : Walked (insert s' W) s' k x := by
  rw [Walked, heaps_insert]
  exact NodeView.Walked.step hx (hk.key x (hx.1.mono (heaps_mono hW)))

omit hW in
theorem private_step {k : K} {v : V} {q x : Ptr T} (hx : Private u S s k v q x) (hu : u ≠ t) :
    Private u (insert s' S) s' k v q x := by
  rw [Private, heaps_insert]
  exact NodeView.Private.step hx hu hk.others

end stable

/-- A step of another thread keeps the assertion. -/
theorem At.step (h₁ : At u S W s op l) (w : Wf S s) (hs : s ∈ W) (hW : W ⊆ S) (hu : u ≠ t)
    (hH : holds l = true → h = false) (hk : Keeps t h S s s') :
    At u (insert s' S) (insert s' W) s' op l := by
  have hkey : ∀ {x}, Pub W x → s'.nodes.key x = s.nodes.key x := fun hx =>
    hk.key _ (hx.mono (heaps_mono hW))
  -- while this call holds the lock, the links stay
  have hlock : holds l = true → optikIsLocked s.lock = true → s'.lock = s.lock := fun hl =>
    hk.locked (hH hl)
  have hlnk : holds l = true → ∀ {x}, Lnk s x → Lnk s' x ∧ s'.nodes.succ x = s.nodes.succ x :=
    fun hl x hx =>
      let ⟨h1, h2⟩ := Lnk.of_data (x := x) (hk.data (hH hl))
      ⟨h1.mpr hx, h2 hx⟩
  have hpub : ∀ {x}, Lnk s x → s'.nodes.key x = s.nodes.key x := fun hx =>
    hk.key _ (w.listed.pub_lnk hx)
  cases l with
  | searchLt curr => exact ⟨h₁.1, walked_step hk hW h₁.2⟩
  | searchNext curr =>
    obtain ⟨h1, h2, h3⟩ := h₁
    exact ⟨h1, pub_insert h2 s', by rw [hkey h2]; exact h3⟩
  | searchEq curr =>
    obtain ⟨h1, h2, h3⟩ := h₁
    exact ⟨h1, walked_step hk hW h2, by rw [hkey h2.1]; exact h3⟩
  | searchVal curr =>
    obtain ⟨h1, h2, h3⟩ := h₁
    exact ⟨h1, pub_insert h2 s', by rw [hkey h2]; exact h3⟩
  | insertVersion => exact h₁
  | insertFirst version => exact ⟨h₁.1, h₁.2.insert hs hk.touch⟩
  | insertNext version curr => exact ⟨h₁.1, h₁.2.step hk hW hs⟩
  | insertLt version pred curr =>
    obtain ⟨h1, h2, h3, h4⟩ := h₁
    exact ⟨h1, h2.step hk hW hs, h3.insert s', walked_step hk hW h4⟩
  | insertEq version pred curr =>
    obtain ⟨h1, h2, h3, h4, h5⟩ := h₁
    exact ⟨h1, h2.step hk hW hs, h3.insert s', walked_step hk hW h4, by rw [hkey h4.1]; exact h5⟩
  | insertAlloc version pred curr =>
    obtain ⟨h1, h2, h3, h4, h5⟩ := h₁
    exact ⟨h1, h2.step hk hW hs, h3.insert s', pub_insert h4 s', by rw [hkey h4]; exact h5⟩
  | insertTry version pred newnode =>
    obtain ⟨k, v, c, h1, h2, h3, h4, h5, h6⟩ := h₁
    exact ⟨k, v, c, h1, h2.step hk hW hs, h3.insert s', pub_insert h4 s', by rw [hkey h4]; exact h5,
      private_step hk h6 hu⟩
  | insertCas version pred newnode =>
    obtain ⟨k, v, c, h1, h2, h3, h4, h5, h6, h7⟩ := h₁
    exact ⟨k, v, c, h1, h2.step hk hW hs, h3.insert s', pub_insert h4 s', by rw [hkey h4]; exact h5,
      private_step hk h6 hu, h7⟩
  | insertFree newnode => exact h₁
  | insertStore pred newnode =>
    obtain ⟨k, v, h1, h2, h3, h4, h5, h6⟩ := h₁
    obtain ⟨h7, h8⟩ := hlnk rfl h3
    have hn := hpub (h3.next (w.listed.ne_tail_of_lt h4))
    refine ⟨k, v, h1, by rw [hlock rfl h2]; exact h2, h7, by rw [hpub h3]; exact h4, ?_, ?_⟩
    · rw [h8]
      exact h5.trans_eq hn.symm
    · rw [h8]
      exact private_step hk h6 hu
  | insertUnlock =>
    have h2 : optikIsLocked s.lock = true := h₁
    show optikIsLocked s'.lock = true
    rw [hlock rfl h2]
    exact h2
  | insertUnlocked ver =>
    have h2 := hlock rfl h₁.1
    exact ⟨by rw [h2]; exact h₁.1, h2.trans h₁.2⟩
  | removeVersion => exact h₁
  | removeFirst version => exact ⟨h₁.1, h₁.2.insert hs hk.touch⟩
  | removeNext version curr => exact ⟨h₁.1, h₁.2.step hk hW hs⟩
  | removeLt version pred curr =>
    obtain ⟨h1, h2, h3, h4⟩ := h₁
    exact ⟨h1, h2.step hk hW hs, h3.insert s', walked_step hk hW h4⟩
  | removeNe version pred curr =>
    obtain ⟨h1, h2, h3, h4, h5⟩ := h₁
    exact ⟨h1, h2.step hk hW hs, h3.insert s', walked_step hk hW h4, by rw [hkey h4.1]; exact h5⟩
  | removeTry version pred curr =>
    obtain ⟨h1, h2, h3, h4, h5⟩ := h₁
    exact ⟨h1, h2.step hk hW hs, h3.insert s', pub_insert h4 s', by rw [hkey h4]; exact h5⟩
  | removeCas version pred curr =>
    obtain ⟨h1, h2, h3, h4, h5, h6⟩ := h₁
    exact ⟨h1, h2.step hk hW hs, h3.insert s', pub_insert h4 s', by rw [hkey h4]; exact h5, h6⟩
  | removeCnxt pred curr =>
    obtain ⟨h1, h2, h3, h4, h5, h6⟩ := h₁
    obtain ⟨h7, h8⟩ := hlnk rfl h3
    have hc : Lnk s curr := h4 ▸ h3.next (w.listed.ne_tail_of_lt h5)
    exact ⟨h1, by rw [hlock rfl h2]; exact h2, h7, h8.trans h4, by rw [hpub h3]; exact h5,
      by rw [hpub hc]; exact h6⟩
  | removeStore pred curr cnxt =>
    obtain ⟨h1, h2, h3, h4, h5, h6, h9⟩ := h₁
    obtain ⟨h7, h8⟩ := hlnk rfl h3
    have hc : Lnk s curr := h4 ▸ h3.next (w.listed.ne_tail_of_lt h5)
    exact ⟨h1, by rw [hlock rfl h2]; exact h2, h7, h8.trans h4, by rw [hpub h3]; exact h5,
      by rw [hpub hc]; exact h6, (hlnk rfl hc).2.trans h9⟩
  | removeUnlock curr => exact ⟨by rw [hlock rfl h₁.1]; exact h₁.1, pub_insert h₁.2 s'⟩
  | removeUnlocked curr ver =>
    have h2 := hlock rfl h₁.1
    exact ⟨by rw [h2]; exact h₁.1, h2.trans h₁.2.1, pub_insert h₁.2.2 s'⟩
  | removeVal curr => exact pub_insert h₁ s'
  | removeFree curr result => trivial
  | done r => trivial
  | unchanged r =>
    obtain ⟨s₀, hs₀, h1⟩ := h₁
    exact ⟨s₀, Set.mem_insert_of_mem _ hs₀, h1⟩

/-! ### The steps -/

/-- The result of a call that has taken effect. -/
def lin (s : GlList T K V) : Call K V → Pc T V → Option (Answer V)
  | _, .insertUnlock => some (.flag true)
  | _, .insertUnlocked _ => some (.flag true)
  | _, .removeUnlock curr => some (.val (s.nodes.val curr))
  | _, .removeUnlocked curr _ => some (.val (s.nodes.val curr))
  | _, .removeVal curr => some (.val (s.nodes.val curr))
  | _, .removeFree _ result => some (.val result)
  | _, .done r => some r
  | _, _ => none

theorem lin_step (h₁ : At u S W s op l) (hk : Keeps t h S s s') : lin s' op l = lin s op l := by
  cases l
  case removeUnlock => simp [lin, hk.val _ h₁.2]
  case removeUnlocked => simp [lin, hk.val _ h₁.2.2]
  case removeVal => simp [lin, hk.val _ h₁]
  all_goals rfl

/-- What a step does: it is one of the writes, it establishes the next
assertion, and it changes the map only where the call takes effect. -/
structure StepOk (t : T) (S W : Set (GlList T K V)) (s : GlList T K V) (op : Call K V)
    (l : Pc T V) (s' : GlList T K V) (l' : Pc T V) : Prop where
  act : Act t S s (holds l) (holds l') s'
  next : At t (insert s' S) (extend reset op l' s' W) s' op l'
  point : (lin s' op l' = lin s op l ∧ absMap s' = absMap s) ∨ (lin s op l = none ∧ ∃ r,
    lin s' op l' = some r ∧ (mapObject K V).apply op (absMap s) = (absMap s', r))

section step

variable (w : Wf S s)

include w

/-- A step that only reads. -/
theorem StepOk.read {l l' : Pc T V} (hs : s ∈ W) (hH : holds l' = holds l) (hr : ¬ reset op l')
    (h : At t S W s op l') (hl : lin s op l' = lin s op l) : StepOk t S W s op l s l' := by
  refine ⟨hH ▸ .skip, ?_, Or.inl ⟨hl, rfl⟩⟩
  rw [extend_of_not hr, Set.insert_eq_of_mem w.versioned.mem, Set.insert_eq_of_mem hs]
  exact h

/-- The node met with the key of the call held its value when it was linked. -/
theorem someSeen {k : K} {x : Ptr T} (hW : W ⊆ S) (hx : Pub W x) (hk : s.nodes.key x = k)
    (hb : ⊥ < k) (ht : k < ⊤) : ∃ s₀ ∈ W, absMap s₀ k = some (s.nodes.val x) := by
  obtain ⟨_, ⟨s₀, h0, rfl⟩, hl⟩ := hx
  have hxh := w.listed.ne_head_of_lt (x := x) (k := ⊥) (by rw [← hk] at hb; exact hb)
  have hxt := w.listed.ne_tail_of_lt (x := x) (k := ⊤) (by rw [← hk] at ht; exact ht)
  have h0' : s₀.nodes ∈ heaps S := ⟨s₀, hW h0, rfl⟩
  exact ⟨s₀, h0, hk ▸ w.listed.absMap_past h0' ⟨hl, id, hxh, hxt⟩⟩

theorem noneSeen {k : K} {x : Ptr T} (hx : Walked W s k x) (hle : k ≤ s.nodes.key x)
    (hne : s.nodes.key x ≠ k) : ∃ s₀ ∈ W, absMap s₀ k = none := by
  obtain ⟨_, ⟨s₀, h0, rfl⟩, hn⟩ := hx.2.resolve_left fun h => hne (le_antisymm h hle)
  exact ⟨s₀, h0, hn⟩

/-- Taking the lock with the version that was read: the links are as they were
read since. -/
theorem take_ok {k : K} {v : OptikT} {p c : Ptr T} (hW : W ⊆ S) (hp : Behind W s k v p)
    (hc : Read W p c) (hu : optikIsLocked v = false) (he : s.lock = v) :
    Lnk s p ∧ s.nodes.succ p = c := by
  obtain ⟨_, ⟨s₁, h1, rfl⟩, hl⟩ := hp.met
  have hlnk : Lnk s p := (Lnk.of_data (w.versioned.data_eq hW hp.since hu he h1)).1.mp hl
  obtain ⟨s₂, h2, rfl⟩ := hc
  obtain ⟨-, h3⟩ := Lnk.of_data (x := p) (w.versioned.data_eq hW hp.since hu he h2)
  exact ⟨hlnk, (h3 hlnk).symm⟩

theorem head_lt {k : K} (hb : ⊥ < k) : s.nodes.key .head < k := by
  rw [show s.nodes.key .head = ⊥ from w.listed.head_key]
  exact hb

variable (hs : s ∈ W) (hW : W ⊆ S) (hh : (view T K V).Hind (heaps W) s.nodes) (hb : ⊥ < op.key)
  (ht : op.key < ⊤)

include hs hW hh hb ht

theorem walked_next {x : Ptr T} (hx : Pub W x) (hk : s.nodes.key x < op.key) :
    Walked W s op.key (s.nodes.succ x) :=
  NodeView.Passed.next w.listed (heaps_mono hW) hh ⟨hx, Or.inl hk⟩ (w.listed.ne_tail_of_lt hk)

theorem step_ok_search (h : At t S W s op l)
    (hl : (∃ c, l = .searchLt c) ∨ (∃ c, l = .searchNext c) ∨ (∃ c, l = .searchEq c) ∨
      ∃ c, l = .searchVal c) : StepOk t S W s op l (step t s op l).1 (step t s op l).2 := by
  rcases hl with ⟨c, rfl⟩ | ⟨c, rfl⟩ | ⟨c, rfl⟩ | ⟨c, rfl⟩
  · obtain ⟨h1, h2⟩ := h
    by_cases hlt : s.nodes.key c < op.key
    · simp only [step, hlt, if_true]
      exact .read w hs rfl id ⟨h1, h2.1, hlt⟩ rfl
    · simp only [step, hlt, if_false]
      exact .read w hs rfl id ⟨h1, h2, not_lt.mp hlt⟩ rfl
  · obtain ⟨h1, h2, h3⟩ := h
    exact .read w hs rfl id ⟨h1, walked_next w hs hW hh hb ht h2 h3⟩ rfl
  · obtain ⟨h1, h2, h3⟩ := h
    by_cases he : s.nodes.key c = op.key
    · simp only [step, he, if_true]
      exact .read w hs rfl id ⟨h1, h2.1, he⟩ rfl
    · simp only [step, he, if_false]
      obtain ⟨s₀, hs₀, h0⟩ := noneSeen w h2 h3 he
      obtain ⟨k, rfl⟩ := h1
      exact .read w hs rfl id ⟨s₀, hs₀, apply_search_none h0⟩ rfl
  · obtain ⟨⟨k, rfl⟩, h2, h3⟩ := h
    obtain ⟨s₀, hs₀, h0⟩ := someSeen w hW h2 h3 hb ht
    exact .read w hs rfl id ⟨s₀, hs₀, apply_search_some h0⟩ rfl

theorem step_ok_find (h : At t S W s op l)
    (hl : (∃ v, l = .insertFirst v) ∨ (∃ v c, l = .insertNext v c) ∨ (∃ v p c, l = .insertLt v p c) ∨
      (∃ v p c, l = .insertEq v p c) ∨ (∃ v, l = .removeFirst v) ∨ (∃ v c, l = .removeNext v c) ∨
      (∃ v p c, l = .removeLt v p c) ∨ ∃ v p c, l = .removeNe v p c) :
    StepOk t S W s op l (step t s op l).1 (step t s op l).2 := by
  have hhead : ∀ {v : OptikT}, (word T K V).Since W v → Behind W s op.key v .head := fun hv =>
    ⟨⟨_, ⟨s, hs, rfl⟩, linked_head⟩, head_lt w hb, hv⟩
  rcases hl with ⟨v, rfl⟩ | ⟨v, c, rfl⟩ | ⟨v, p, c, rfl⟩ | ⟨v, p, c, rfl⟩ | ⟨v, rfl⟩ | ⟨v, c, rfl⟩ |
    ⟨v, p, c, rfl⟩ | ⟨v, p, c, rfl⟩
  · obtain ⟨h1, h2⟩ := h
    have hp := hhead h2
    exact .read w hs rfl id ⟨h1, hp, ⟨s, hs, rfl⟩, walked_next w hs hW hh hb ht hp.met hp.lt⟩ rfl
  · obtain ⟨h1, hp⟩ := h
    exact .read w hs rfl id ⟨h1, hp, ⟨s, hs, rfl⟩, walked_next w hs hW hh hb ht hp.met hp.lt⟩ rfl
  · obtain ⟨h1, h2, h3, h4⟩ := h
    by_cases hlt : s.nodes.key c < op.key
    · simp only [step, hlt, if_true]
      exact .read w hs rfl id ⟨h1, h4.1, hlt, h2.since⟩ rfl
    · simp only [step, hlt, if_false]
      exact .read w hs rfl id ⟨h1, h2, h3, h4, not_lt.mp hlt⟩ rfl
  · obtain ⟨h1, h2, h3, h4, h5⟩ := h
    by_cases he : s.nodes.key c = op.key
    · simp only [step, he, if_true]
      obtain ⟨s₀, hs₀, h0⟩ := someSeen w hW h4.1 he hb ht
      obtain ⟨k, v, rfl⟩ := h1
      exact .read w hs rfl id ⟨s₀, hs₀, apply_insert_some h0⟩ rfl
    · simp only [step, he, if_false]
      exact .read w hs rfl id ⟨h1, h2, h3, h4.1, lt_of_le_of_ne h5 (Ne.symm he)⟩ rfl
  · obtain ⟨h1, h2⟩ := h
    have hp := hhead h2
    exact .read w hs rfl id ⟨h1, hp, ⟨s, hs, rfl⟩, walked_next w hs hW hh hb ht hp.met hp.lt⟩ rfl
  · obtain ⟨h1, hp⟩ := h
    exact .read w hs rfl id ⟨h1, hp, ⟨s, hs, rfl⟩, walked_next w hs hW hh hb ht hp.met hp.lt⟩ rfl
  · obtain ⟨h1, h2, h3, h4⟩ := h
    by_cases hlt : s.nodes.key c < op.key
    · simp only [step, hlt, if_true]
      exact .read w hs rfl id ⟨h1, h4.1, hlt, h2.since⟩ rfl
    · simp only [step, hlt, if_false]
      exact .read w hs rfl id ⟨h1, h2, h3, h4, not_lt.mp hlt⟩ rfl
  · obtain ⟨h1, h2, h3, h4, h5⟩ := h
    by_cases he : s.nodes.key c = op.key
    · simp only [step, he, ne_eq, not_true, if_false]
      exact .read w hs rfl id ⟨h1, h2, h3, h4.1, he⟩ rfl
    · simp only [step, he, ne_eq, not_false_eq_true, if_true]
      obtain ⟨s₀, hs₀, h0⟩ := noneSeen w h4 h5 he
      obtain ⟨k, rfl⟩ := h1
      exact .read w hs rfl id ⟨s₀, hs₀, apply_remove_none h0⟩ rfl

theorem step_ok_lock (h : At t S W s op l)
    (hl : l = .insertVersion ∨ (∃ v p c, l = .insertAlloc v p c) ∨ (∃ v p n, l = .insertTry v p n) ∨
      (∃ v p n, l = .insertCas v p n) ∨ (∃ n, l = .insertFree n) ∨ l = .removeVersion ∨
      (∃ v p c, l = .removeTry v p c) ∨ ∃ v p c, l = .removeCas v p c) :
    StepOk t S W s op l (step t s op l).1 (step t s op l).2 := by
  -- the window opens when the word is read
  have hopen : ∀ l' : Pc T V, reset op l' → (word T K V).Since (extend reset op l' s W) s.lock := by
    rintro l' hr s₀ (rfl | ⟨hn, -⟩)
    · exact le_rfl
    · exact absurd hr hn
  have hmem : insert s.nodes (heaps S) = heaps S := Set.insert_eq_of_mem w.listed.mem
  rcases hl with rfl | ⟨v, p, c, rfl⟩ | ⟨v, p, n, rfl⟩ | ⟨v, p, n, rfl⟩ | ⟨n, rfl⟩ | rfl |
    ⟨v, p, c, rfl⟩ | ⟨v, p, c, rfl⟩
  · exact ⟨.skip, ⟨h, hopen _ trivial⟩, Or.inl ⟨rfl, rfl⟩⟩
  · obtain ⟨⟨k, v', rfl⟩, h2, h3, h4, h5⟩ := h
    obtain ⟨hsame, -, hp⟩ := w.listed.allocate t ⟨k, v', c.ref⟩
    have hact : Act t S s false false { s with nodes := (s.nodes.allocate t ⟨k, v', c.ref⟩).1 } :=
      .alloc _
    have hk := hact.keeps w
    refine ⟨hact, ?_, Or.inl ⟨rfl, hsame.absMap w.listed fun _ _ => Iff.rfl⟩⟩
    rw [extend_of_not (show ¬ reset _ (step t s (.insert k v') (.insertAlloc v p c)).2 from id)]
    refine ⟨k, v', c, rfl, h2.step hk hW hs, h3.insert _, pub_insert h4 _, ?_, ?_⟩
    · exact h5.trans_eq (hk.key c (h4.mono (heaps_mono hW))).symm
    · rw [Private, heaps_insert]
      exact hp
  · obtain ⟨k, v', c, rfl, h2, h3, h4, h5, h6⟩ := h
    by_cases ho : optikOutdated s.lock v = true
    · simp only [step, ho, if_true]
      exact .read w hs rfl id ⟨k, v', rfl⟩ rfl
    · simp only [step, ho]
      exact .read w hs rfl id ⟨k, v', c, rfl, h2, h3, h4, h5, h6, not_locked_of_outdated ho⟩ rfl
  · obtain ⟨k, v', c, rfl, h2, h3, h4, h5, h6, h7⟩ := h
    rcases hc : s.casLock v (v + 1) with ⟨⟨⟩, s'⟩
    · simp only [step, hc]
      rw [GlList.casLock_false hc]
      exact .read w hs rfl id ⟨k, v', rfl⟩ rfl
    · obtain ⟨he, rfl⟩ := GlList.casLock_true hc
      obtain ⟨hlp, hn⟩ := take_ok w hW h2 h3 h7 he
      subst he hn
      simp only [step, hc]
      refine ⟨.take h7, ⟨k, v', rfl, lock_locked h7, hlp, h2.lt, h5, ?_⟩, Or.inl ⟨rfl, rfl⟩⟩
      rw [Private, heaps_insert, hmem]
      exact h6
  · exact ⟨.free n, h, Or.inl ⟨rfl, rfl⟩⟩
  · exact ⟨.skip, ⟨h, hopen _ trivial⟩, Or.inl ⟨rfl, rfl⟩⟩
  · obtain ⟨h1, h2, h3, h4, h5⟩ := h
    by_cases ho : optikOutdated s.lock v = true
    · simp only [step, ho, if_true]
      exact .read w hs rfl id h1 rfl
    · simp only [step, ho]
      exact .read w hs rfl id ⟨h1, h2, h3, h4, h5, not_locked_of_outdated ho⟩ rfl
  · obtain ⟨h1, h2, h3, h4, h5, h6⟩ := h
    rcases hc : s.casLock v (v + 1) with ⟨⟨⟩, s'⟩
    · simp only [step, hc]
      rw [GlList.casLock_false hc]
      exact .read w hs rfl id h1 rfl
    · obtain ⟨he, rfl⟩ := GlList.casLock_true hc
      obtain ⟨hlp, hn⟩ := take_ok w hW h2 h3 h6 he
      subst he
      simp only [step, hc]
      exact ⟨.take h6, ⟨h1, lock_locked h6, hlp, hn, h2.lt, h5⟩, Or.inl ⟨rfl, rfl⟩⟩

theorem step_ok_write (h : At t S W s op l) (hd : s.lock ≠ optikDeleted)
    (hl : (∃ p n, l = .insertStore p n) ∨ l = .insertUnlock ∨ (∃ v, l = .insertUnlocked v) ∨
      (∃ p c, l = .removeCnxt p c) ∨ (∃ p c n, l = .removeStore p c n) ∨ (∃ c, l = .removeUnlock c) ∨
      (∃ c v, l = .removeUnlocked c v) ∨ (∃ c, l = .removeVal c) ∨ ∃ c r, l = .removeFree c r) :
    StepOk t S W s op l (step t s op l).1 (step t s op l).2 := by
  rcases hl with ⟨p, n, rfl⟩ | rfl | ⟨v, rfl⟩ | ⟨p, c, rfl⟩ | ⟨p, c, n, rfl⟩ | ⟨c, rfl⟩ |
    ⟨c, v, rfl⟩ | ⟨c, rfl⟩ | ⟨c, r, rfl⟩
  · obtain ⟨k, v, rfl, h2, h3, h4, h5, h6⟩ := h
    obtain ⟨hn, habs⟩ := link_absMap w h3 h6 h4 h5
    refine ⟨.link h2 h3 h6 h4 h5, h2, Or.inr ⟨rfl, _, rfl, ?_⟩⟩
    rw [apply_insert_none hn, ← habs]
    rfl
  · exact .read w hs rfl id ⟨h, rfl⟩ rfl
  · obtain ⟨h1, rfl⟩ := h
    exact ⟨.unlock h1 hd, trivial, Or.inl ⟨rfl, rfl⟩⟩
  · obtain ⟨h1, h2, h3, h4, h5, h6⟩ := h
    exact .read w hs rfl id ⟨h1, h2, h3, h4, h5, h6, rfl⟩ rfl
  · obtain ⟨⟨k, rfl⟩, h2, h3, h4, h5, h6, rfl⟩ := h
    have hpt := w.listed.ne_tail_of_lt h5
    have hct : c ≠ .tail := w.listed.ne_tail_of_lt (show s.nodes.key c < ⊤ by rw [h6]; exact ht)
    have hch : c ≠ .head := w.listed.ne_head_of_lt (show ⊥ < s.nodes.key c by rw [h6]; exact hb)
    have hact : Act t S s true true (s.setNext p (s.nodes.succ c)) := .unlink h2 h3 h4 hpt hct
    obtain ⟨hv, habs⟩ := unlink_absMap w h3 h4 hpt hct hch
    have hpc : Pub S c := w.listed.pub_lnk (h4 ▸ h3.next hpt)
    refine ⟨hact, ⟨h2, pub_insert hpc _⟩, Or.inr ⟨rfl, _, rfl, ?_⟩⟩
    rw [show s.nodes.key c = k from h6] at hv habs
    rw [apply_remove_some hv, ← habs, ← (hact.keeps w).val c hpc]
    rfl
  · exact .read w hs rfl id ⟨h.1, rfl, h.2⟩ rfl
  · obtain ⟨h1, rfl, h2⟩ := h
    exact ⟨.unlock h1 hd, pub_insert h2 _, Or.inl ⟨rfl, rfl⟩⟩
  · exact .read w hs rfl id trivial rfl
  · exact ⟨.free c, trivial, Or.inl ⟨rfl, rfl⟩⟩

/-- **Every step is one of the writes, and leads to the next assertion.** -/
theorem step_ok (h : At t S W s op l) (hr : result l = none) (hd : s.lock ≠ optikDeleted) :
    StepOk t S W s op l (step t s op l).1 (step t s op l).2 := by
  cases l
  case searchLt | searchNext | searchEq | searchVal =>
    exact step_ok_search w hs hW hh hb ht h (by simp)
  case insertFirst | insertNext | insertLt | insertEq | removeFirst | removeNext | removeLt |
      removeNe => exact step_ok_find w hs hW hh hb ht h (by simp)
  case insertVersion | insertAlloc | insertTry | insertCas | insertFree | removeVersion | removeTry |
      removeCas => exact step_ok_lock w hs hW hh hb ht h (by simp)
  case insertStore | insertUnlock | insertUnlocked | removeCnxt | removeStore | removeUnlock |
      removeUnlocked | removeVal | removeFree =>
    exact step_ok_write w hs hW hh hb ht h hd (by simp)
  case done => cases hr
  case unchanged => cases hr

end step

/-! ### Runs -/

/-- The runs with fewer than 2^63 acquisitions. -/
abbrev Few (es : Trace T (Call K V) (Answer V) (GlList T K V) (Pc T V)) :=
  (word T K V).Few (program T K V) es

theorem start_at (w : Wf S s) (op : Call K V) (hb : ⊥ < op.key) : At t S {s} s op (start op) := by
  rcases op with k | ⟨k, v⟩ | k
  · exact ⟨⟨k, rfl⟩, ⟨_, ⟨s, rfl, rfl⟩, linked_head⟩, Or.inl (head_lt w hb).le⟩
  · exact ⟨k, v, rfl⟩
  · exact ⟨k, rfl⟩

variable [Nontrivial K]

theorem Wf.initial : Wf {(⟨Heap.empty, optikInit⟩ : GlList T K V)} ⟨Heap.empty, optikInit⟩ := by
  refine ⟨?_, .initial _⟩
  rw [heaps, Set.image_singleton]
  exact NodeView.Listed.initial rfl rfl rfl

/-- The proof outline. No two threads hold the lock. -/
def outline : Outline (program T K V) Few reset where
  glob es s := Wf ((program T K V).seen es) s ∧ (word T K V).Bounded (program T K V) es s
  loc t W₀ W s op l := W ⊆ W₀ ∧ (view T K V).Hind (heaps W) s.nodes ∧ Client op ∧ At t W₀ W s op l
  pair f g := holds f.2 = true → holds g.2 = false
  pair_symm h hg := by
    by_contra hf
    rw [Bool.not_eq_false] at hf
    rw [h hf] at hg
    cases hg
  init := ⟨Wf.initial, .initial rfl⟩
  frame := by
    intro es s e th ⟨hw, hb⟩ _
    rw [Program.seen, Set.insert_eq_of_mem hw.versioned.mem]
    exact ⟨hw, hb.frame⟩
  call t hg hs hp := by
    refine ⟨Set.singleton_subset_iff.mpr hs, ?_, hp, start_at hg.1 _ hp.1⟩
    rw [heaps, Set.image_singleton]
    exact .singleton _
  call_pair := by
    rintro (k | ⟨k, v⟩ | k) g h <;> cases h
  tau := by
    intro es c t op l i s' l' hr ht hres hstep hfew ⟨hw, hb⟩ ⟨hW, hh, hc, hat⟩
    have he : step t c.shared op l = (s', l') := Option.some.inj hstep
    have hs := hr.shared_mem_window reset ht
    have hok := step_ok hw hs hW hh hc.1 hc.2.1 hat hres hb.ne_deleted
    rw [he] at hok
    have hk := hok.act.keeps hw
    refine ⟨⟨hok.act.wf hw, hb.step hfew (hok.act.touch hw)⟩, ⟨?_, ?_, hc, hok.next⟩,
      fun u op₁ l₁ hu hcu ⟨hW₁, hh₁, hc₁, hat₁⟩ hp => ⟨?_, fun hl' => ?_⟩⟩
    · rintro s (rfl | ⟨-, hs⟩)
      · exact Set.mem_insert _ _
      · exact Set.mem_insert_of_mem _ (hW hs)
    · by_cases hreset : reset op l'
      · have : extend reset op l' s' (window reset t es) = {s'} := by
          ext s
          simp [extend, hreset]
        rw [this, heaps, Set.image_singleton]
        exact .singleton _
      · rw [extend_of_not hreset]
        exact hok.act.hindsight hw hW hh
    · refine ⟨Set.insert_subset_insert hW₁, hok.act.hindsight hw hW₁ hh₁, hc₁,
        hat₁.step hw (hr.shared_mem_window reset hcu) hW₁ hu (fun hl => ?_) hk⟩
      by_contra hn
      rw [hp (Bool.not_eq_false _ ▸ hn)] at hl
      cases hl
    · -- the lock is taken only when it is free
      by_contra hn
      have hl₁ : holds l₁ = true := Bool.not_eq_false _ ▸ hn
      have hlk := hat₁.locked hl₁
      rcases hl : holds l with _ | _
      · have hact := hok.act
        rw [hl, hl'] at hact
        cases hact with
        | take hu => rw [hu] at hlk; cases hlk
      · rw [hp hl] at hl₁
        cases hl₁

section run

variable {es : Trace T (Call K V) (Answer V) (GlList T K V) (Pc T V)}
  {c : Config T (Call K V) (GlList T K V) (Pc T V)}

theorem step_ok_of_run (hr : (program T K V).RunIf Few es c) {l l' : Pc T V}
    (ht : c.threads t = some (op, l)) (hres : result l = none)
    (hstep : step t c.shared op l = (s', l')) :
    StepOk t ((program T K V).seen es) (window reset t es) c.shared op l s' l' := by
  obtain ⟨hw, hb⟩ := (outline.holds hr).glob
  obtain ⟨hW, hh, hc, hat⟩ := (outline.holds hr).loc t op l ht
  have hok := step_ok hw (hr.shared_mem_window reset ht) hW hh hc.1 hc.2.1 hat hres hb.ne_deleted
  rwa [hstep] at hok

theorem linearizable [Fintype T] : LinearizableIf (mapObject K V) (program T K V) Few absMap :=
  Concur.linearizable <| outline.points lin (NodeView.absMap_empty rfl)
    (fun s op => by cases op <;> rfl)
    (fun {es c t op l i s' l'} hr hh ht hres hstep _ => by
      have hok := step_ok_of_run hr ht hres (Option.some.inj hstep)
      exact ⟨hok.point, fun u op₁ l₁ _ hu =>
        lin_step (hh.loc u op₁ l₁ hu).2.2.2 (hok.act.keeps hh.glob.1)⟩)
    fun {es c t op l r} hr hh ht hres => by
      have hat := (hh.loc t op l ht).2.2.2
      cases l <;> cases hres
      · exact Or.inl rfl
      · obtain ⟨s, hs, h⟩ := hat
        exact Or.inr ⟨rfl, s, window_subset_since _ _ _ hs, h⟩

/-- A removed node is never linked again, and its `next` never changes. -/
theorem removed_of_run {es₂ : Trace T (Call K V) (Answer V) (GlList T K V) (Pc T V)}
    {c₂ : Config T (Call K V) (GlList T K V) (Pc T V)} (hr : (program T K V).RunIf Few es c)
    (hr₂ : (program T K V).RunIf Few (es₂ ++ es) c₂) {x : Ptr T}
    (hx : Pub ((program T K V).seen es) x) (hl : ¬ Lnk c.shared x) :
    Pub ((program T K V).seen (es₂ ++ es)) x ∧ ¬ Lnk c₂.shared x ∧
      c₂.shared.nodes.next x = c.shared.nodes.next x := by
  induction es₂ generalizing c₂ with
  | nil =>
    have : c₂.shared = c.shared := by rw [← hr₂.last_eq, ← hr.last_eq]; rfl
    rw [this]
    exact ⟨hx, hl, rfl⟩
  | cons p es₂ ih =>
    cases hr₂ with
    | @step _ c₁ e _ hr₁ hst hfew =>
      obtain ⟨h1, h2, h3⟩ := ih hr₁
      refine ⟨pub_insert h1 _, ?_⟩
      cases hst with
      | call => exact ⟨h2, h3⟩
      | @tau t op l s' l' i ht hres hstep =>
        have hok := step_ok_of_run hr₁ ht hres (Option.some.inj hstep)
        have hw := (outline.holds hr₁).glob.1
        have h4 := hok.act.removed hw x h1 h2
        exact ⟨h4, (hok.act.next_eq hw x h1 h4).trans h3⟩
      | ret => exact ⟨h2, h3⟩

/-- `length()` -/
def length (s : GlList T K V) (fuel : ℕ) : Option ℕ :=
  (view T K V).length (fun _ => true) s.nodes fuel

theorem tail_next_of_run (hr : (program T K V).RunIf Few es c) :
    c.shared.nodes.next .tail = ⟨.null, false⟩ := by
  induction hr with
  | init => rfl
  | step hr hst _ ih =>
    cases hst with
    | call => exact ih
    | tau i ht hres hstep =>
      have hok := step_ok_of_run hr ht hres (Option.some.inj hstep)
      exact (hok.act.tail_next (outline.holds hr).glob.1).trans ih
    | ret => exact ih

/-- **`length` returns the number of linked nodes**, in a run that may go on. -/
theorem length_eq (hr : (program T K V).RunIf Few es c) :
    ∃ n, ∀ fuel ≥ n, length c.shared fuel = some {x | (view T K V).Live c.shared.nodes x}.ncard := by
  have hw := (outline.holds hr).glob.1
  exact hw.listed.length_eq (fun _ => true) (congrArg Ref.ptr (tail_next_of_run hr)) fun _ _ => by
    simp

end run

/-- **The list with one word is a map.** Its calls are linearizable, it is
sorted at every moment, and a removed node stays removed, with the `next`
pointer it had. -/
theorem optik_gl_linearizable [Fintype T] :
    LinearizableIf (mapObject K V) (program T K V) Few absMap ∧
    ∀ es c, (program T K V).RunIf Few es c →
      Sorted c.shared.nodes.succ c.shared.nodes.key .head .tail ∧
      ∀ es₂ c₂, (program T K V).RunIf Few (es₂ ++ es) c₂ → ∀ x,
        Pub ((program T K V).seen es) x → ¬ Lnk c.shared x →
        ¬ Lnk c₂.shared x ∧ c₂.shared.nodes.next x = c.shared.nodes.next x :=
  ⟨linearizable, fun _ _ hr => ⟨(outline.holds hr).glob.1.listed.sorted,
    fun _ _ hr₂ _ hx hl => (removed_of_run hr hr₂ hx hl).2⟩⟩

/-- Three threads, and keys 1 to 8. -/
theorem optik_gl_linearizable_three :
    LinearizableIf (mapObject (Fin 10) ℕ) (program (Fin 3) (Fin 10) ℕ) Few absMap :=
  optik_gl_linearizable.1

end LinkedListOptikGL

end Ascylib
