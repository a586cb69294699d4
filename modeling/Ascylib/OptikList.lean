/-
# Sorted lists whose nodes carry an OPTIK word

`src/aux/ll_optik.h`: a node has a key, a value, a `next` pointer and a lock
word that protects the pointer. Nodes have no mark: one that has been unlinked
is told by its lock, which is never given back (`Wf.unlinked`).

`Act` lists the writes of a thread that holds the locks of the nodes `H`, and
holds those of `H'` after it. Each keeps the list well formed (`Act.wf`), and
leaves the locked nodes of other threads alone (`Act.keeps`).
-/
import Ascylib.ListHeap
import Ascylib.OptikMemory

set_option linter.unusedSectionVars false

namespace Ascylib

open Concur Chain

structure LlOptik (T K V : Type*) where
  key : K
  val : V
  next : Ptr T
  lock : OptikT

abbrev OptikHeap (T K V : Type*) := Memory T (LlOptik T K V)

namespace OptikHeap

variable {T K V : Type*} [DecidableEq T]

def key (s : OptikHeap T K V) (x : Ptr T) : K := (s.mem x).key
def val (s : OptikHeap T K V) (x : Ptr T) : V := (s.mem x).val
def next (s : OptikHeap T K V) (x : Ptr T) : Ptr T := (s.mem x).next
def lock (s : OptikHeap T K V) (x : Ptr T) : OptikT := (s.mem x).lock

/-- `x->next = q`. -/
def setNext (s : OptikHeap T K V) (x q : Ptr T) : OptikHeap T K V := s.set x { s.mem x with next := q }

/-- `x->lock = v`. -/
def setLock (s : OptikHeap T K V) (x : Ptr T) (v : OptikT) : OptikHeap T K V :=
  s.set x { s.mem x with lock := v }

/-- `CAS_U64(&x->lock, old, new) == old`: whether it succeeded, and the memory
after it. -/
def casLock (s : OptikHeap T K V) (x : Ptr T) (old new : OptikT) : Bool × OptikHeap T K V :=
  if s.lock x = old then (true, s.setLock x new) else (false, s)

/-- `allocate_ll_optik(key, value, next)` by thread `t`: the memory, and the
address. -/
def allocateLlOptik (s : OptikHeap T K V) (t : T) (key : K) (value : V) (next : Ptr T) :
    OptikHeap T K V × Ptr T :=
  s.allocate t ⟨key, value, next, optikInit⟩

/-- The list constructor: the two sentinels, linked. -/
def empty [Bot K] [Top K] [Zero V] : OptikHeap T K V where
  mem
    | .head => ⟨⊥, 0, .tail, optikInit⟩
    | .tail => ⟨⊤, 0, .null, optikInit⟩
    | _ => ⟨⊥, 0, .null, optikInit⟩
  count := fun _ => 0
  freed := []

section

variable (s : OptikHeap T K V) (x y q : Ptr T) (v : OptikT)

theorem mem_setNext_of_ne (h : y ≠ x) : (s.setNext x q).mem y = s.mem y := s.mem_set_of_ne x y _ h

theorem mem_setLock_of_ne (h : y ≠ x) : (s.setLock x v).mem y = s.mem y := s.mem_set_of_ne x y _ h

@[simp] theorem key_setNext : (s.setNext x q).key y = s.key y := by
  by_cases h : y = x
  · subst h; simp [setNext, key]
  · simp [key, mem_setNext_of_ne s x y q h]

@[simp] theorem val_setNext : (s.setNext x q).val y = s.val y := by
  by_cases h : y = x
  · subst h; simp [setNext, val]
  · simp [val, mem_setNext_of_ne s x y q h]

@[simp] theorem lock_setNext : (s.setNext x q).lock y = s.lock y := by
  by_cases h : y = x
  · subst h; simp [setNext, lock]
  · simp [lock, mem_setNext_of_ne s x y q h]

@[simp] theorem next_setNext_self : (s.setNext x q).next x = q := by simp [setNext, next]

theorem next_setNext_of_ne (h : y ≠ x) : (s.setNext x q).next y = s.next y := by
  simp [next, mem_setNext_of_ne s x y q h]

@[simp] theorem key_setLock : (s.setLock x v).key y = s.key y := by
  by_cases h : y = x
  · subst h; simp [setLock, key]
  · simp [key, mem_setLock_of_ne s x y v h]

@[simp] theorem val_setLock : (s.setLock x v).val y = s.val y := by
  by_cases h : y = x
  · subst h; simp [setLock, val]
  · simp [val, mem_setLock_of_ne s x y v h]

@[simp] theorem next_setLock : (s.setLock x v).next y = s.next y := by
  by_cases h : y = x
  · subst h; simp [setLock, next]
  · simp [next, mem_setLock_of_ne s x y v h]

@[simp] theorem lock_setLock_self : (s.setLock x v).lock x = v := by simp [setLock, lock]

theorem lock_setLock_of_ne (h : y ≠ x) : (s.setLock x v).lock y = s.lock y := by
  simp [lock, mem_setLock_of_ne s x y v h]

end

theorem casLock_true {s s' : OptikHeap T K V} {x : Ptr T} {old new : OptikT}
    (h : s.casLock x old new = (true, s')) : s.lock x = old ∧ s' = s.setLock x new := by
  unfold casLock at h
  split at h
  · cases h; exact ⟨‹_›, rfl⟩
  · cases h

theorem casLock_false {s s' : OptikHeap T K V} {x : Ptr T} {old new : OptikT}
    (h : s.casLock x old new = (false, s')) : s' = s := by
  unfold casLock at h
  split at h <;> cases h
  rfl

end OptikHeap

namespace OptikList

variable {T K V : Type*} [DecidableEq T]

/-- The list of `ll_optik` nodes; no linked node is dead. -/
abbrev view (T K V : Type*) : NodeView (LlOptik T K V) T K V where
  key := LlOptik.key
  val := LlOptik.val
  next := LlOptik.next
  dead _ := False

abbrev optik (T K V : Type*) : OptikView (LlOptik T K V) (Ptr T) where
  lock := LlOptik.lock
  data := LlOptik.next

/-- The node is linked from the head. -/
abbrev Lnk (s : OptikHeap T K V) (x : Ptr T) : Prop := (view T K V).Lnk s x

/-- The node has been linked. -/
abbrev Pub (S : Set (OptikHeap T K V)) (x : Ptr T) : Prop := Met Lnk S x

/-- The map the list stands for. -/
noncomputable abbrev absMap (s : OptikHeap T K V) : K → Option V := (view T K V).absMap s

variable [LinearOrder K]

/-- A well-formed list, in a run that went through the memories `S`. -/
structure Wf [BoundedOrder K] (S : Set (OptikHeap T K V)) (s : OptikHeap T K V) : Prop where
  listed : (view T K V).Listed S s
  versioned : (optik T K V).Versioned S s
  unlinked : ∀ x, Pub S x → ¬ Lnk s x → optikIsLocked (s.lock x) = true
  tail_next : s.next .tail = .null

/-- A linked node whose lock is taken. -/
structure Locked (s : OptikHeap T K V) (x : Ptr T) : Prop where
  lnk : Lnk s x
  locked : optikIsLocked (s.lock x) = true
  ne_deleted : s.lock x ≠ optikDeleted

/-- The writes of thread `t`, that holds the locks of `H` before and of `H'`
after. -/
inductive Act (t : T) (S : Set (OptikHeap T K V)) (s : OptikHeap T K V) (H H' : Set (Ptr T)) :
    OptikHeap T K V → Prop
  | skip : H' = H → Act t S s H H' s
  | free (x : Ptr T) : H' = H → Act t S s H H' (s.ssmemFree x)
  | alloc {n : LlOptik T K V} : H' = H → n.lock = optikInit → Act t S s H H' (s.allocate t n).1
  | take {x : Ptr T} : H' = insert x H → Pub S x → optikIsLocked (s.lock x) = false →
      Act t S s H H' (s.setLock x (s.lock x + 1))
  | revert {x : Ptr T} : H' = H \ {x} → x ∈ H → Locked s x → (optik T K V).Clean S s x →
      Act t S s H H' (s.setLock x (s.lock x - 1))
  | unlock {x : Ptr T} : H' = H \ {x} → x ∈ H → Locked s x →
      Act t S s H H' (s.setLock x (s.lock x + 1))
  | link {p n : Ptr T} {k : K} {v : V} : H' = H → p ∈ H → Locked s p →
      (view T K V).Private t S s ⟨k, v, s.next p, optikInit⟩ n →
      s.key p < k → k < s.key (s.next p) → Act t S s H H' (s.setNext p n)
  | unlink {p c : Ptr T} : H' = H \ {c} → p ∈ H → c ∈ H → Locked s p → Locked s c →
      s.next p = c → p ≠ .tail → c ≠ .tail → Act t S s H H' (s.setNext p (s.next c))

/-- What a step of thread `t`, that holds the locks of `H`, leaves alone. -/
structure Keeps (t : T) (H : Set (Ptr T)) (S : Set (OptikHeap T K V)) (s s' : OptikHeap T K V) :
    Prop where
  key : ∀ x, Pub S x → s'.key x = s.key x
  val : ∀ x, Pub S x → s'.val x = s.val x
  locked : ∀ x, Pub S x → x ∉ H → optikIsLocked (s.lock x) = true → s'.mem x = s.mem x
  lnk : ∀ x, x ∉ H → Lnk s x → Lnk s' x
  others : (view T K V).Others t S s s'

variable [BoundedOrder K] {t : T} {S W : Set (OptikHeap T K V)} {s s' : OptikHeap T K V}
  {H H' : Set (Ptr T)}

/-! ### The writes -/

theorem setNext_swing (s : OptikHeap T K V) (p q : Ptr T) :
    (view T K V).Swing s (s.setNext p q) p q where
  other x hx := OptikHeap.mem_setNext_of_ne s p x q hx
  key := OptikHeap.key_setNext s p p q
  val := OptikHeap.val_setNext s p p q
  dead := Iff.rfl
  next := OptikHeap.next_setNext_self s p q
  count := rfl

/-- A write to the word of a node. -/
theorem setLock_same (S : Set (OptikHeap T K V)) (s : OptikHeap T K V) (x : Ptr T) (v : OptikT) :
    (view T K V).Same S s (s.setLock x v) :=
  ⟨fun y _ => OptikHeap.key_setLock s x y v, fun y _ => OptikHeap.val_setLock s x y v,
    fun y _ _ => OptikHeap.next_setLock s x y v, fun _ => le_rfl⟩

theorem setLock_lnk (s : OptikHeap T K V) (x y : Ptr T) (v : OptikT) :
    Lnk (s.setLock x v) y ↔ Lnk s y := by
  have h : (view T K V).succ (s.setLock x v) = (view T K V).succ s :=
    funext fun y => OptikHeap.next_setLock s x y v
  rw [Lnk, NodeView.Lnk, h]

section link

variable {p n : Ptr T} {k : K} {v : V} (w : Wf S s) (hp : Locked s p)
  (hn : (view T K V).Private t S s ⟨k, v, s.next p, optikInit⟩ n) (h1 : s.key p < k)
  (h2 : k < s.key (s.next p))

include w hp hn h1 h2

theorem link_lnk (x : Ptr T) : Lnk (s.setNext p n) x ↔ Lnk s x ∨ x = n :=
  (setNext_swing s p n).link_lnk w.listed hp.lnk (w.listed.ne_tail_of_lt h1) hn.1
    (by rw [hn.2.1]; rfl) x

theorem link_pub (x : Ptr T) : Pub (insert (s.setNext p n) S) x ↔ Pub S x ∨ x = n :=
  (setNext_swing s p n).link_pub w.listed hp.lnk (w.listed.ne_tail_of_lt h1) hn.1
    (by rw [hn.2.1]; rfl) x

theorem link_listed : (view T K V).Listed (insert (s.setNext p n) S) (s.setNext p n) := by
  obtain ⟨hn1, hn2, i, hi, hc⟩ := hn
  exact (setNext_swing s p n).link_listed w.listed hp.lnk (w.listed.ne_tail_of_lt h1) hn1
    (by rw [hn2]; rfl) (by rw [hn2]; exact h1) (by rw [hn2]; exact h2) ⟨t, i, hi, hc⟩

/-- Linking a node adds its key to the map. -/
theorem link_absMap : absMap s k = none ∧
    absMap (s.setNext p n) = Function.update (absMap s) k (some v) := by
  obtain ⟨hn1, hn2, i, hi, -⟩ := hn
  have := (setNext_swing s p n).link_absMap w.listed hp.lnk (w.listed.ne_tail_of_lt h1) hn1
    (by rw [hn2]; rfl) (by rw [hn2]; exact h1) (by rw [hn2]; exact h2) id
    (by rw [hi]; exact ⟨nofun, nofun⟩)
  rwa [hn2] at this

end link

section unlink

variable {p c : Ptr T} (w : Wf S s) (hp : Locked s p) (hpc : s.next p = c) (hpt : p ≠ .tail)
  (hct : c ≠ .tail)

include w hp hpc hpt hct

theorem unlink_lnk (x : Ptr T) : Lnk (s.setNext p (s.next c)) x ↔ Lnk s x ∧ x ≠ c :=
  (setNext_swing s p (s.next c)).unlink_lnk w.listed hp.lnk hpt hpc hct x

theorem unlink_pub (x : Ptr T) : Pub (insert (s.setNext p (s.next c)) S) x ↔ Pub S x :=
  (setNext_swing s p (s.next c)).unlink_pub w.listed hp.lnk hpt hpc hct x

theorem unlink_ne : p ≠ c := by
  obtain ⟨-, -, h, -⟩ := NodeView.Swing.unlink_chain w.listed hp.lnk hpt hpc hct
  rintro rfl
  exact lt_irrefl _ h

/-- Unlinking a node removes its key from the map. -/
theorem unlink_absMap (hch : c ≠ .head) : absMap s (s.key c) = some (s.val c) ∧
    absMap (s.setNext p (s.next c)) = Function.update (absMap s) (s.key c) none := by
  have hl : (view T K V).Live s c := ⟨hpc ▸ hp.lnk.next hpt, id, hch, hct⟩
  exact ⟨w.listed.absMap_past w.listed.mem hl,
    (setNext_swing s p (s.next c)).unlink_absMap w.listed hp.lnk hpt hpc hct hl⟩

end unlink

namespace Act

variable (w : Wf S s) (h : Act t S s H H' s')

include w h

/-- What a write does to the words. -/
theorem touch (x : Ptr T) : (optik T K V).Touch S s s' x ∨ s'.lock x = optikInit ∧
    ¬ s.Allocated x := by
  cases h with
  | skip => exact Or.inl (OptikView.touch_of_mem rfl)
  | free => exact Or.inl (OptikView.touch_of_mem rfl)
  | @alloc n _ hn =>
    by_cases hx : x = .node t (s.count t)
    · subst hx
      refine Or.inr ⟨?_, s.not_allocated_next t⟩
      show ((s.allocate t n).1.mem (s.allocate t n).2).lock = optikInit
      rw [s.mem_allocate_self, hn]
    · exact Or.inl (OptikView.touch_of_mem (s.mem_allocate_of_ne x n t hx))
  | @take y _ _ hu =>
    refine Or.inl ?_
    by_cases hx : x = y
    · subst hx
      exact .take hu (OptikHeap.lock_setLock_self s x _) (OptikHeap.next_setLock s x x _)
    · exact OptikView.touch_of_mem (OptikHeap.mem_setLock_of_ne s y x _ hx)
  | @revert y _ _ hl hc =>
    refine Or.inl ?_
    by_cases hx : x = y
    · subst hx
      exact .revert hl.locked hl.ne_deleted hc (OptikHeap.lock_setLock_self s x _)
        (OptikHeap.next_setLock s x x _)
    · exact OptikView.touch_of_mem (OptikHeap.mem_setLock_of_ne s y x _ hx)
  | @unlock y _ _ hl =>
    refine Or.inl ?_
    by_cases hx : x = y
    · subst hx
      exact .unlock hl.locked hl.ne_deleted (OptikHeap.lock_setLock_self s x _)
    · exact OptikView.touch_of_mem (OptikHeap.mem_setLock_of_ne s y x _ hx)
  | @link p n _ _ _ _ hp =>
    refine Or.inl ?_
    by_cases hx : x = p
    · subst hx
      exact .write hp.locked (OptikHeap.lock_setNext s x x n)
    · exact OptikView.touch_of_mem (OptikHeap.mem_setNext_of_ne s p x n hx)
  | @unlink p c _ _ _ hp =>
    refine Or.inl ?_
    by_cases hx : x = p
    · subst hx
      exact .write hp.locked (OptikHeap.lock_setNext s x x _)
    · exact OptikView.touch_of_mem (OptikHeap.mem_setNext_of_ne s p x _ hx)

theorem count (u : T) : s.count u ≤ s'.count u := by
  cases h
  case alloc n _ _ => exact s.count_le_allocate n t u
  all_goals exact le_rfl

theorem versioned : (optik T K V).Versioned (insert s' S) s' :=
  w.versioned.step (h.count w) fun x hx => (h.touch w x).resolve_right fun h => h.2 hx

/-- The writes to pointers aside, the list stays as it is. -/
theorem listed : (view T K V).Listed (insert s' S) s' := by
  cases h with
  | skip => rw [Set.insert_eq_of_mem w.listed.mem]; exact w.listed
  | free x => exact (NodeView.same_free S s x).listed w.listed
  | alloc => exact (w.listed.allocate t _).1.listed w.listed
  | take => exact (setLock_same S s _ _).listed w.listed
  | revert => exact (setLock_same S s _ _).listed w.listed
  | unlock => exact (setLock_same S s _ _).listed w.listed
  | link _ _ hp hn h1 h2 => exact link_listed w hp hn h1 h2
  | unlink _ _ _ hp _ hpc hpt hct =>
    exact (setNext_swing s _ _).unlink_listed w.listed hp.lnk hpt hpc hct

/-- Which nodes are linked after it. -/
theorem lnk (x : Ptr T) : (Lnk s' x → Lnk s x ∨ ¬ Pub S x ∧ optikIsLocked (s'.lock x) = false) ∧
    (Lnk s x → Lnk s' x ∨ x ∈ H ∧ x ∉ H' ∧ optikIsLocked (s'.lock x) = true) := by
  cases h with
  | skip => exact ⟨Or.inl, Or.inl⟩
  | free => exact ⟨Or.inl, Or.inl⟩
  | @alloc n =>
    have := (w.listed.allocate t n).1.lnk w.listed x
    exact ⟨fun h => Or.inl (this.mp h), fun h => Or.inl (this.mpr h)⟩
  | take => rw [setLock_lnk]; exact ⟨Or.inl, Or.inl⟩
  | revert => rw [setLock_lnk]; exact ⟨Or.inl, Or.inl⟩
  | unlock => rw [setLock_lnk]; exact ⟨Or.inl, Or.inl⟩
  | @link p n _ _ _ _ hp hn h1 h2 =>
    rw [link_lnk w hp hn h1 h2]
    refine ⟨fun h => h.imp_right ?_, fun h => Or.inl (Or.inl h)⟩
    rintro rfl
    refine ⟨hn.1, ?_⟩
    rw [OptikHeap.lock_setNext, OptikHeap.lock, hn.2.1]
    exact optikInit_unlocked
  | @unlink p c he _ hcH hp hc hpc hpt hct =>
    rw [unlink_lnk w hp hpc hpt hct]
    refine ⟨fun h => Or.inl h.1, fun h => ?_⟩
    by_cases hx : x = c
    · subst hx
      exact Or.inr ⟨hcH, by simp [he], by rw [OptikHeap.lock_setNext]; exact hc.locked⟩
    · exact Or.inl ⟨h, hx⟩

theorem pub (x : Ptr T) (hx : Pub (insert s' S) x) :
    Pub S x ∨ Lnk s' x ∧ ∃ i, x = .node t i := by
  cases h with
  | skip => rw [Set.insert_eq_of_mem w.listed.mem] at hx; exact Or.inl hx
  | free y => exact Or.inl (((NodeView.same_free S s y).pub w.listed x).mp hx)
  | @alloc n => exact Or.inl (((w.listed.allocate t n).1.pub w.listed x).mp hx)
  | take => exact Or.inl (((setLock_same S s _ _).pub w.listed x).mp hx)
  | revert => exact Or.inl (((setLock_same S s _ _).pub w.listed x).mp hx)
  | unlock => exact Or.inl (((setLock_same S s _ _).pub w.listed x).mp hx)
  | link _ _ hp hn h1 h2 =>
    refine ((link_pub w hp hn h1 h2 x).mp hx).imp_right ?_
    rintro rfl
    obtain ⟨-, -, i, rfl, -⟩ := id hn
    exact ⟨(link_lnk w hp hn h1 h2 _).mpr (Or.inr rfl), i, rfl⟩
  | unlink _ _ _ hp _ hpc hpt hct => exact Or.inl ((unlink_pub w hp hpc hpt hct x).mp hx)

/-- Locked nodes that the thread does not hold, unlinked nodes, and nodes that
were never linked stay as they are. -/
theorem mem_eq (x : Ptr T) (hx : Pub S x → (x ∈ H → ¬ Lnk s x) ∧ optikIsLocked (s.lock x) = true)
    (ha : x ≠ .node t (s.count t)) : s'.mem x = s.mem x := by
  have hpub : ∀ {y}, Lnk s y → y ∈ H → x ≠ y := fun hl hy he => by
    subst he
    exact (hx (w.listed.pub_lnk hl)).1 hy hl
  cases h with
  | skip => rfl
  | free => rfl
  | @alloc n => exact s.mem_allocate_of_ne x n t ha
  | @take y _ hp hu =>
    refine OptikHeap.mem_setLock_of_ne s y x _ fun he => ?_
    subst he
    rw [(hx hp).2] at hu
    cases hu
  | revert _ hy hl => exact OptikHeap.mem_setLock_of_ne s _ x _ (hpub hl.lnk hy)
  | unlock _ hy hl => exact OptikHeap.mem_setLock_of_ne s _ x _ (hpub hl.lnk hy)
  | link _ hy hl => exact OptikHeap.mem_setNext_of_ne s _ x _ (hpub hl.lnk hy)
  | unlink _ hy _ hl => exact OptikHeap.mem_setNext_of_ne s _ x _ (hpub hl.lnk hy)

theorem keyval (x : Ptr T) (ha : x ≠ .node t (s.count t)) :
    s'.key x = s.key x ∧ s'.val x = s.val x := by
  cases h with
  | @alloc n =>
    have := s.mem_allocate_of_ne x n t ha
    exact ⟨congrArg LlOptik.key this, congrArg LlOptik.val this⟩
  | skip => exact ⟨rfl, rfl⟩
  | free => exact ⟨rfl, rfl⟩
  | take => exact ⟨OptikHeap.key_setLock s _ x _, OptikHeap.val_setLock s _ x _⟩
  | revert => exact ⟨OptikHeap.key_setLock s _ x _, OptikHeap.val_setLock s _ x _⟩
  | unlock => exact ⟨OptikHeap.key_setLock s _ x _, OptikHeap.val_setLock s _ x _⟩
  | link => exact ⟨OptikHeap.key_setNext s _ x _, OptikHeap.val_setNext s _ x _⟩
  | unlink => exact ⟨OptikHeap.key_setNext s _ x _, OptikHeap.val_setNext s _ x _⟩

/-- A published node that is not linked after it keeps its successor. -/
theorem next_eq (x : Ptr T) (hx : Pub S x) (hl : ¬ Lnk s' x) : s'.next x = s.next x := by
  cases h with
  | skip => rfl
  | free => rfl
  | @alloc n => exact congrArg LlOptik.next ((w.listed.allocate t n).2.1 x hx)
  | take => exact OptikHeap.next_setLock s _ x _
  | revert => exact OptikHeap.next_setLock s _ x _
  | unlock => exact OptikHeap.next_setLock s _ x _
  | link _ _ hp hn h1 h2 =>
    refine OptikHeap.next_setNext_of_ne s _ x _ fun he => hl ?_
    rw [link_lnk w hp hn h1 h2, he]
    exact Or.inl hp.lnk
  | unlink _ _ _ hp _ hpc hpt hct =>
    refine OptikHeap.next_setNext_of_ne s _ x _ fun he => hl ?_
    rw [unlink_lnk w hp hpc hpt hct, he]
    exact ⟨hp.lnk, unlink_ne w hp hpc hpt hct⟩

theorem tail_next : s'.next .tail = .null := by
  rw [← w.tail_next]
  cases h with
  | skip => rfl
  | free => rfl
  | @alloc n => exact congrArg LlOptik.next (s.mem_allocate_of_ne .tail n t nofun)
  | take => exact OptikHeap.next_setLock s _ _ _
  | revert => exact OptikHeap.next_setLock s _ _ _
  | unlock => exact OptikHeap.next_setLock s _ _ _
  | link _ _ _ _ h1 =>
    exact OptikHeap.next_setNext_of_ne s _ _ _ (Ne.symm (w.listed.ne_tail_of_lt h1))
  | unlink _ _ _ _ _ _ hpt => exact OptikHeap.next_setNext_of_ne s _ _ _ (Ne.symm hpt)

theorem wf : Wf (insert s' S) s' where
  listed := h.listed w
  versioned := h.versioned w
  tail_next := h.tail_next w
  unlinked x hx hl := by
    have hx := (h.pub w x hx).resolve_right fun h => hl h.1
    by_cases hs : Lnk s x
    · exact (((h.lnk w x).2 hs).resolve_left hl).2.2
    · have hlk := w.unlinked x hx hs
      rw [OptikHeap.lock, h.mem_eq w x (fun _ => ⟨fun _ => hs, hlk⟩) fun he =>
        w.listed.not_pub_next t (he ▸ hx)]
      exact hlk

theorem keeps : Keeps t H S s s' where
  key x hx := (h.keyval w x fun he => w.listed.not_pub_next t (he ▸ hx)).1
  val x hx := (h.keyval w x fun he => w.listed.not_pub_next t (he ▸ hx)).2
  locked x hx hH hl := h.mem_eq w x (fun _ => ⟨fun h => absurd h hH, hl⟩) fun he =>
    w.listed.not_pub_next t (he ▸ hx)
  lnk x hH hl := ((h.lnk w x).2 hl).resolve_right fun h => hH h.1
  others := by
    refine ⟨fun u i hu hp => ⟨h.mem_eq w _ (fun h => absurd h hp) ?_, fun hp' => ?_⟩, h.count w⟩
    · rintro ⟨⟩; exact hu rfl
    · rcases h.pub w _ hp' with h1 | ⟨-, j, h1⟩
      · exact hp h1
      · cases h1; exact hu rfl

/-- Nodes that were met and are unlinked show what they showed. -/
theorem hindsight (hW : W ⊆ S) (hh : (view T K V).Hind W s) : (view T K V).Hind (insert s' W) s' :=
  hh.step fun x hx hl => h.next_eq w x (hx.mono hW) hl

/-- A removed node stays removed, and is never written again. -/
theorem removed (x : Ptr T) (hx : Pub S x) (hl : ¬ Lnk s x) : s'.mem x = s.mem x ∧ ¬ Lnk s' x :=
  ⟨h.mem_eq w x (fun _ => ⟨fun _ => hl, w.unlinked x hx hl⟩) fun he =>
    w.listed.not_pub_next t (he ▸ hx), fun hl' => ((h.lnk w x).1 hl').elim hl fun h => h.1 hx⟩

omit w in
/-- Only free locks are taken. -/
theorem holds (x : Ptr T) (hx : x ∈ H') : x ∈ H ∨ optikIsLocked (s.lock x) = false := by
  cases h with
  | skip he => exact Or.inl (he ▸ hx)
  | free _ he => exact Or.inl (he ▸ hx)
  | alloc he => exact Or.inl (he ▸ hx)
  | take he _ hu =>
    rw [he] at hx
    rcases hx with rfl | hx
    · exact Or.inr hu
    · exact Or.inl hx
  | revert he => rw [he] at hx; exact Or.inl hx.1
  | unlock he => rw [he] at hx; exact Or.inl hx.1
  | link he => exact Or.inl (he ▸ hx)
  | unlink he => rw [he] at hx; exact Or.inl hx.1

/-- A linked node whose lock is taken is held, by this thread or by another
one that held it before. -/
theorem held (x : Ptr T) (hx : Lnk s' x) (hl : optikIsLocked (s'.lock x) = true) :
    x ∈ H' ∨ x ∉ H ∧ Lnk s x ∧ optikIsLocked (s.lock x) = true := by
  have hx' : Lnk s x := ((h.lnk w x).1 hx).resolve_right fun h => by rw [h.2] at hl; cases hl
  have hsame : H' = H → s'.lock x = s.lock x →
      x ∈ H' ∨ x ∉ H ∧ Lnk s x ∧ optikIsLocked (s.lock x) = true := fun he hlk => by
    rw [he, ← hlk]
    exact (em _).imp_right fun h => ⟨h, hx', hl⟩
  cases h with
  | skip he => exact hsame he rfl
  | free _ he => exact hsame he rfl
  | @alloc n he =>
    exact hsame he (congrArg LlOptik.lock ((w.listed.allocate t n).2.1 x (w.listed.pub_lnk hx')))
  | @take y he =>
    by_cases hy : x = y
    · exact Or.inl (by simp [he, hy])
    · rw [OptikHeap.lock_setLock_of_ne s y x _ hy] at hl
      exact (em (x ∈ H)).imp (fun h => by simp [he, h]) fun h => ⟨h, hx', hl⟩
  | @revert y he _ hly =>
    by_cases hy : x = y
    · subst hy
      rw [OptikHeap.lock_setLock_self, revert_unlocked hly.locked] at hl
      cases hl
    · rw [OptikHeap.lock_setLock_of_ne s y x _ hy] at hl
      exact (em (x ∈ H)).imp (fun h => by simp [he, h, hy]) fun h => ⟨h, hx', hl⟩
  | @unlock y he _ hly =>
    by_cases hy : x = y
    · subst hy
      rw [OptikHeap.lock_setLock_self, unlock_unlocked hly.locked hly.ne_deleted] at hl
      cases hl
    · rw [OptikHeap.lock_setLock_of_ne s y x _ hy] at hl
      exact (em (x ∈ H)).imp (fun h => by simp [he, h, hy]) fun h => ⟨h, hx', hl⟩
  | link he => exact hsame he (OptikHeap.lock_setNext s _ x _)
  | unlink he _ _ hp _ hpc hpt hct =>
    have hxc := ((unlink_lnk w hp hpc hpt hct x).mp hx).2
    rw [OptikHeap.lock_setNext] at hl
    exact (em (x ∈ H)).imp (fun h => by simp [he, h, hxc]) fun h => ⟨h, hx', hl⟩

end Act

/-! ### Locked nodes -/

section locked

variable {x : Ptr T} (w : Wf S s) (hk : Keeps t H S s s') (h : Locked s x) (hx : x ∉ H)

include w hk h hx

theorem Locked.mem_eq : s'.mem x = s.mem x :=
  hk.locked x (w.listed.pub_lnk h.lnk) hx h.locked

theorem Locked.step : Locked s' x := by
  have hm := Locked.mem_eq w hk h hx
  exact ⟨hk.lnk x hx h.lnk, by rw [OptikHeap.lock, hm]; exact h.locked,
    by rw [OptikHeap.lock, hm]; exact h.ne_deleted⟩

end locked

/-! ### The empty list -/

theorem Wf.initial [Nontrivial K] [Zero V] :
    Wf {(OptikHeap.empty : OptikHeap T K V)} OptikHeap.empty where
  listed := NodeView.Listed.initial rfl rfl rfl
  versioned := .initial _
  tail_next := rfl
  unlinked x hx hl := by
    obtain ⟨s, rfl, hx⟩ := hx
    exact absurd hx hl

theorem empty_absMap [Zero V] : absMap (OptikHeap.empty : OptikHeap T K V) = fun _ => none :=
  NodeView.absMap_empty rfl

end OptikList

end Ascylib
