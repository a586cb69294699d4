/-
# The queue of Michael and Scott

The memory that the `queue_ms` structures share: nodes linked along `next`, the
pointer `head` to the node before the oldest item, and `tail`, which lags. The
list starts with the node of the constructor and only grows (`all`), and `head`
moves along it; the items are those behind `head` (`abs`).

`Act` lists the writes of a thread. `tail` points to the last node or to the one
before it (`Wf.last`). With the helping dequeuers it also stays at or behind
`head` (`Behind`); with two locks `head` may pass it.
-/
import Ascylib.Concur.Path
import Ascylib.Memory
import Ascylib.StackQueue

set_option linter.unusedSectionVars false

namespace Ascylib

open Concur

/-- `stackqueue_node.h`. -/
structure StackqueueNode (T V : Type*) where
  item : V
  next : Ptr T

structure MsQueue (T V : Type*) where
  memory : Memory T (StackqueueNode T V)
  head : Ptr T
  tail : Ptr T

namespace MsQueue

variable {T V : Type*} [DecidableEq T]

def item (s : MsQueue T V) (x : Ptr T) : V := (s.memory.mem x).item
def next (s : MsQueue T V) (x : Ptr T) : Ptr T := (s.memory.mem x).next

/-- `x->next = q`. -/
def setNext (s : MsQueue T V) (x q : Ptr T) : MsQueue T V :=
  { s with memory := s.memory.modify x fun n => { n with next := q } }

/-- `set->head = q`. -/
def setHead (s : MsQueue T V) (q : Ptr T) : MsQueue T V := { s with head := q }

/-- `set->tail = q`. -/
def setTail (s : MsQueue T V) (q : Ptr T) : MsQueue T V := { s with tail := q }

/-- `CAS_PTR(&set->head, old, new) == old`. -/
def casHead (s : MsQueue T V) (old new : Ptr T) : Bool × MsQueue T V :=
  if s.head = old then (true, s.setHead new) else (false, s)

/-- `CAS_PTR(&set->tail, old, new) == old`. -/
def casTail (s : MsQueue T V) (old new : Ptr T) : Bool × MsQueue T V :=
  if s.tail = old then (true, s.setTail new) else (false, s)

/-- `CAS_PTR(&x->next, old, new) == old`. -/
def casNext (s : MsQueue T V) (x old new : Ptr T) : Bool × MsQueue T V :=
  if s.next x = old then (true, s.setNext x new) else (false, s)

/-- `allocate_stackqueue_node(item, NULL)` by thread `t`. -/
def allocateStackqueueNode (s : MsQueue T V) (t : T) (item : V) : MsQueue T V × Ptr T :=
  let (memory, node) := s.memory.allocate t ⟨item, .null⟩
  ({ s with memory := memory }, node)

/-- `release_stackqueue_node(x)`. -/
def releaseStackqueueNode (s : MsQueue T V) (x : Ptr T) : MsQueue T V :=
  { s with memory := s.memory.ssmemFree x }

/-- The constructor: one node, without an item. -/
def empty [Zero V] : MsQueue T V where
  memory := ⟨fun _ => ⟨0, .null⟩, fun _ => 0, []⟩
  head := .head
  tail := .head

/-- `count()`: the nodes met from `node` on, of at most `fuel`. -/
def countFrom (s : MsQueue T V) : ℕ → Ptr T → ℕ
  | 0, _ => 0
  | fuel + 1, node => if s.next node ≠ .null then s.countFrom fuel (s.next node) + 1 else 0

/-! ### The list -/

/-- The nodes from `x` on. -/
noncomputable abbrev onward (s : MsQueue T V) (x : Ptr T) : List (Ptr T) := nodes s.next .null x

/-- All nodes that were ever linked. -/
noncomputable abbrev all (s : MsQueue T V) : List (Ptr T) := s.onward .head

/-- The items in the queue, oldest first. -/
noncomputable def abs (s : MsQueue T V) : List V := (s.onward s.head).tail.map s.item

/-- A well-formed queue. -/
structure Wf (s : MsQueue T V) : Prop where
  root : .head ∈ s.all
  head : s.head ∈ s.all
  tail : s.tail ∈ s.all
  last : s.next s.tail = .null ∨ s.next (s.next s.tail) = .null
  alloc : ∀ x ∈ s.all, s.memory.Allocated x
  freed : ∀ x ∈ s.memory.freed, x ∈ s.all ∧ x ∉ s.onward s.head

/-- `head` has not passed `tail`. -/
def Behind (s : MsQueue T V) : Prop := s.tail ∈ s.onward s.head

/-- The writes of thread `t`. -/
inductive Act (t : T) (s : MsQueue T V) : MsQueue T V → Prop
  | skip : Act t s s
  | own {s' : MsQueue T V} {m : ℕ} : .node t m ∉ s.all →
      (∀ x, x ≠ .node t m → s'.memory.mem x = s.memory.mem x) →
      (∀ u, s.memory.count u ≤ s'.memory.count u) → s'.memory.freed = s.memory.freed →
      s'.head = s.head → s'.tail = s.tail → Act t s s'
  | link {m : ℕ} : s.next s.tail = .null → .node t m ∉ s.all → m < s.memory.count t →
      s.next (.node t m) = .null → Act t s (s.setNext s.tail (.node t m))
  | swing : s.next s.tail ≠ .null → Act t s (s.setTail (s.next s.tail))
  | pop : s.next s.head ≠ .null → Act t s (s.setHead (s.next s.head))
  | free {x : Ptr T} : x ∈ s.all → x ∉ s.onward s.head → Act t s (s.releaseStackqueueNode x)

/-- What a step of thread `t` leaves alone. -/
structure Keeps (t : T) (s s' : MsQueue T V) : Prop where
  all : ∀ {x}, x ∈ s.all → x ∈ s'.all
  onward : ∀ {x y}, x ∈ s.all → y ∈ s.onward x → y ∈ s'.onward x
  item : ∀ {x}, x ∈ s.all → s'.item x = s.item x
  next : ∀ {x}, x ∈ s.all → s.next x ≠ .null → s'.next x = s.next x
  head : s'.head ∈ s'.onward s.head
  tail : s'.tail ∈ s'.onward s.tail
  before : ∀ {x p q}, x ∈ s.all → p ∈ s.all → x ∉ s.onward p → q ∈ s'.onward p → x ∉ s'.onward q
  freed : ∀ {x}, x ∈ s.memory.freed → x ∈ s'.memory.freed
  others : ∀ {u m}, u ≠ t → .node u m ∉ s.all → s'.memory.mem (.node u m) = s.memory.mem (.node u m) ∧
    .node u m ∉ s'.all
  count : ∀ u, s.memory.count u ≤ s'.memory.count u

section

variable (s : MsQueue T V) (x y q : Ptr T)

theorem mem_setNext_of_ne (h : y ≠ x) : (s.setNext x q).memory.mem y = s.memory.mem y := by
  unfold setNext
  exact s.memory.mem_modify_of_ne x y (fun n : StackqueueNode T V => { n with next := q }) h

@[simp] theorem item_setNext : (s.setNext x q).item y = s.item y := by
  have h : ∀ n : StackqueueNode T V, StackqueueNode.item { n with next := q } = n.item := fun _ => rfl
  exact s.memory.field_modify x y StackqueueNode.item h

@[simp] theorem next_setNext_self : (s.setNext x q).next x = q := by simp [setNext, next]

theorem next_setNext_of_ne (h : y ≠ x) : (s.setNext x q).next y = s.next y :=
  congrArg StackqueueNode.next (mem_setNext_of_ne s x y q h)

end

variable {t u : T} {s s' : MsQueue T V} {x y : Ptr T} {m : ℕ}

namespace Wf

variable (w : Wf s)

include w

theorem path (hx : x ∈ s.all) : Path s.next .null x (s.onward x) := path_self hx

theorem self (hx : x ∈ s.all) : x ∈ s.onward x := mem_nodes_self hx

theorem ne_null (hx : x ∈ s.all) : x ≠ .null := ne_nil_of_mem hx

theorem not_mem_next (t : T) : .node t (s.memory.count t) ∉ s.all :=
  fun h => s.memory.not_allocated_next t (w.alloc _ h)

theorem mem_next (hx : x ∈ s.all) (hn : s.next x ≠ .null) : s.next x ∈ s.all := mem_nodes_next hx hn

theorem next_onward (hx : x ∈ s.all) (hn : s.next x ≠ .null) : s.next x ∈ s.onward x :=
  mem_nodes_next (w.self hx) hn

/-- A node does not come after its successor. -/
theorem not_mem_onward_next (hx : x ∈ s.all) : x ∉ s.onward (s.next x) := by
  have hnd := (w.path hx).nodup
  rw [onward, nodes_cons hx] at hnd
  exact (List.nodup_cons.mp hnd).1

theorem abs_eq : s.abs = (s.onward (s.next s.head)).map s.item := by
  rw [abs, onward, nodes_cons w.head]
  rfl

theorem abs_nil (h : s.next s.head = .null) : s.abs = [] := by
  rw [w.abs_eq, h, onward, nodes_nil]
  rfl

theorem abs_cons (h : s.next s.head ≠ .null) :
    s.abs = s.item (s.next s.head) :: (s.setHead (s.next s.head)).abs := by
  rw [w.abs_eq, onward, nodes_cons (w.mem_next w.head h), List.map_cons, abs]
  show _ = _ :: ((nodes s.next .null (s.next s.head)).tail).map s.item
  rw [nodes_cons (w.mem_next w.head h)]
  rfl

/-- `count()` meets all nodes after the first. -/
theorem countFrom_eq {fuel : ℕ} {p : Ptr T} (hp : p ∈ s.all) (hf : (s.onward p).length ≤ fuel) :
    s.countFrom fuel p = (s.onward (s.next p)).length := by
  induction fuel generalizing p with
  | zero =>
    rw [onward, nodes_cons hp] at hf
    simp at hf
  | succ fuel ih =>
    have hcons : s.onward p = p :: s.onward (s.next p) := nodes_cons hp
    rw [hcons, List.length_cons] at hf
    unfold countFrom
    split_ifs with hn
    · have hmem := w.mem_next hp hn
      have hnext : s.onward (s.next p) = s.next p :: s.onward (s.next (s.next p)) := nodes_cons hmem
      rw [ih hmem (by omega), hnext, List.length_cons]
    · rw [not_not] at hn
      rw [hn, onward, nodes_nil]
      rfl

end Wf

/-! ### The writes -/

/-- A write that leaves the pointers of the list alone. -/
theorem onward_congr (w : Wf s) (h : ∀ y ∈ s.all, s'.next y = s.next y) (hx : x ∈ s.all) :
    s'.onward x = s.onward x :=
  nodes_congr (w.path hx) fun y hy => h y (mem_nodes_trans hx hy)

/-- The list after a node was linked at its end. -/
theorem link_onward (w : Wf s) (hz : s.next s.tail = .null) (hn : .node t m ∉ s.all)
    (hn' : s.next (.node t m) = .null) (hx : x ∈ s.all) :
    (s.setNext s.tail (.node t m)).onward x = s.onward x ++ [.node t m] := by
  have hzx : s.tail ∈ s.onward x := mem_nodes_last hx w.tail hz
  refine nodes_append hzx hz (fun h => hn (mem_nodes_trans hx h)) nofun (next_setNext_self ..) ?_ ?_
  · rw [next_setNext_of_ne]
    · exact hn'
    · exact fun h => hn (h ▸ w.tail)
  · exact fun y _ hy => next_setNext_of_ne s _ y _ hy

namespace Act

variable (a : Act t s s') (w : Wf s)

include a w

theorem count (u : T) : s.memory.count u ≤ s'.memory.count u := by
  cases a
  case own hc _ _ _ => exact hc u
  all_goals exact le_rfl

/-- The list stays as it is, or one node is linked at its end. -/
theorem grow (hx : x ∈ s.all) : s'.onward x = s.onward x ∨
    ∃ m, .node t m ∉ s.all ∧ m < s.memory.count t ∧ s'.onward x = s.onward x ++ [.node t m] := by
  cases a with
  | skip => exact Or.inl rfl
  | @own _ m hn he =>
    refine Or.inl (onward_congr w (fun y hy => ?_) hx)
    exact congrArg StackqueueNode.next (he y fun h => hn (h ▸ hy))
  | link hz hn hm hn' => exact Or.inr ⟨_, hn, hm, link_onward w hz hn hn' hx⟩
  | swing => exact Or.inl rfl
  | pop => exact Or.inl rfl
  | free => exact Or.inl rfl

theorem mem_onward (hx : x ∈ s.all) (hy : y ∈ s.onward x) : y ∈ s'.onward x := by
  rcases a.grow w hx with h | ⟨m, -, -, h⟩ <;> rw [h]
  · exact hy
  · exact List.mem_append_left _ hy

/-- What lies before a pointer stays before what it leads to. -/
theorem not_mem_onward {p q : Ptr T} (hx : x ∈ s.all) (hp : p ∈ s.all) (hn : x ∉ s.onward p)
    (hq : q ∈ s'.onward p) : x ∉ s'.onward q := by
  intro h
  have h : x ∈ s'.onward p := mem_nodes_trans hq h
  rcases a.grow w hp with hg | ⟨m, hm, -, hg⟩ <;> rw [hg] at h
  · exact hn h
  · rcases List.mem_append.mp h with h | h
    · exact hn h
    · cases List.mem_singleton.mp h
      exact hm hx

theorem item_eq (hx : x ∈ s.all) : s'.item x = s.item x := by
  cases a with
  | own hn he => exact congrArg StackqueueNode.item (he x fun h => hn (h ▸ hx))
  | link => exact item_setNext ..
  | skip => rfl
  | swing => rfl
  | pop => rfl
  | free => rfl

theorem next_eq (hx : x ∈ s.all) (hn : s.next x ≠ .null) : s'.next x = s.next x := by
  cases a with
  | own hm he => exact congrArg StackqueueNode.next (he x fun h => hm (h ▸ hx))
  | link hz => exact next_setNext_of_ne s _ x _ fun h => hn (h ▸ hz)
  | skip => rfl
  | swing => rfl
  | pop => rfl
  | free => rfl

theorem keeps : Keeps t s s' := by
  have hall : ∀ {x}, x ∈ s.all → x ∈ s'.all := fun hx => a.mem_onward w w.root hx
  have hself : ∀ {x}, x ∈ s.all → x ∈ s'.onward x := fun hx => mem_nodes_self (hall hx)
  refine ⟨hall, fun hx hy => a.mem_onward w hx hy, fun hx => a.item_eq w hx,
    fun hx hn => a.next_eq w hx hn, ?_, ?_, a.not_mem_onward w, fun {x} hx => ?_,
    fun {u m} hu hm => ⟨?_, ?_⟩, a.count w⟩
  · cases a with
    | own _ _ _ _ hh => rw [hh]; exact hself w.head
    | pop hn => exact w.next_onward w.head hn
    | skip => exact hself w.head
    | link => exact hself w.head
    | swing => exact hself w.head
    | free => exact hself w.head
  · cases a with
    | own _ _ _ _ _ ht => rw [ht]; exact hself w.tail
    | swing hn => exact w.next_onward w.tail hn
    | skip => exact hself w.tail
    | link => exact hself w.tail
    | pop => exact hself w.tail
    | free => exact hself w.tail
  · cases a with
    | own _ _ _ hf => rw [hf]; exact hx
    | free => exact List.mem_cons_of_mem _ hx
    | skip => exact hx
    | link => exact hx
    | swing => exact hx
    | pop => exact hx
  · cases a with
    | own _ he =>
      refine he _ fun h => hu ?_
      cases h
      rfl
    | link => exact mem_setNext_of_ne s _ _ _ fun h => hm (h ▸ w.tail)
    | skip => rfl
    | swing => rfl
    | pop => rfl
    | free => rfl
  · intro h
    rcases a.grow w w.root with hg | ⟨m', -, -, hg⟩ <;> rw [all, hg] at h
    · exact hm h
    · rcases List.mem_append.mp h with h | h
      · exact hm h
      · cases List.mem_singleton.mp h
        exact hu rfl

/-- **Every write keeps the queue well formed.** -/
theorem wf : Wf s' := by
  have hk := a.keeps w
  have hhead : s'.head ∈ s'.all := mem_nodes_trans (hk.all w.head) hk.head
  have htail : s'.tail ∈ s'.all := mem_nodes_trans (hk.all w.tail) hk.tail
  refine ⟨hk.all w.root, hhead, htail, ?_, fun x hx => ?_, fun x hx => ?_⟩
  · have hsame : (∀ y ∈ s.all, s'.next y = s.next y) → s'.tail = s.tail →
        s'.next s'.tail = .null ∨ s'.next (s'.next s'.tail) = .null := by
      intro he ht
      rw [ht, he _ w.tail]
      by_cases hn : s.next s.tail = .null
      · exact Or.inl hn
      · rw [he _ (w.mem_next w.tail hn)]
        exact w.last
    cases a with
    | skip => exact w.last
    | own hn he _ _ _ ht =>
      exact hsame (fun y hy => congrArg StackqueueNode.next (he y fun h => hn (h ▸ hy))) ht
    | @link m hz hn hm hn' =>
      right
      rw [show (s.setNext s.tail (.node t m)).tail = s.tail from rfl, next_setNext_self,
        next_setNext_of_ne]
      · exact hn'
      · exact fun h => hn (h ▸ w.tail)
    | swing hn => exact Or.inl (w.last.resolve_left hn)
    | pop => exact w.last
    | free => exact w.last
  · rcases a.grow w w.root with hg | ⟨m, -, hm, hg⟩ <;> rw [all, hg] at hx
    · exact (w.alloc x hx).mono (a.count w)
    · rcases List.mem_append.mp hx with hx | hx
      · exact (w.alloc x hx).mono (a.count w)
      · cases List.mem_singleton.mp hx
        exact Or.inr (Or.inr ⟨t, m, rfl, hm.trans_le (a.count w t)⟩)
  · have hold : x ∈ s.memory.freed → x ∈ s'.all ∧ x ∉ s'.onward s'.head := by
      intro hx
      obtain ⟨h1, h2⟩ := w.freed x hx
      exact ⟨hk.all h1, hk.before h1 w.head h2 hk.head⟩
    cases a with
    | @free y h1 h2 =>
      rcases List.mem_cons.mp hx with rfl | hx
      · exact ⟨h1, h2⟩
      · exact hold hx
    | own _ _ _ hf => exact hold (hf ▸ hx)
    | skip => exact hold hx
    | link => exact hold hx
    | swing => exact hold hx
    | pop => exact hold hx

/-- `head` stays behind `tail` unless it moves on from where they meet. -/
theorem behind (hb : s.Behind) (hp : s'.head = s.head ∨ s.head ≠ s.tail) : s'.Behind := by
  have hk := a.keeps w
  have htail : s'.tail ∈ s'.onward s.head := mem_nodes_trans (hk.onward w.head hb) hk.tail
  rcases hp with hp | hp
  · rw [Behind, hp]
    exact htail
  · cases a with
    | pop hn =>
      rcases mem_nodes_cases hb with h | h
      · exact absurd h.symm hp
      · exact h
    | own _ _ _ _ hh => rw [Behind, hh]; exact htail
    | skip => exact htail
    | link => exact htail
    | swing => exact htail
    | free => exact htail

end Act

/-- A node that `set->head` has left. -/
def Passed (s : MsQueue T V) (x : Ptr T) : Prop := x ∈ s.all ∧ x ∉ s.onward s.head

theorem Passed.keeps (h : s.Passed x) (w : Wf s) (k : Keeps t s s') : s'.Passed x :=
  ⟨k.all h.1, k.before h.1 w.head h.2 k.head⟩

/-! ### The items -/

section items

variable (w : Wf s)

include w

theorem own_abs {s' : MsQueue T V} (hn : .node t m ∉ s.all)
    (he : ∀ x, x ≠ .node t m → s'.memory.mem x = s.memory.mem x) (hh : s'.head = s.head) :
    s'.abs = s.abs := by
  have hmem : ∀ y ∈ s.all, s'.memory.mem y = s.memory.mem y := fun y hy => he y fun h => hn (h ▸ hy)
  rw [abs, abs, hh, onward_congr w (fun y hy => congrArg StackqueueNode.next (hmem y hy)) w.head]
  refine List.map_congr_left fun y hy => congrArg StackqueueNode.item (hmem y ?_)
  exact mem_nodes_trans w.head (List.mem_of_mem_tail hy)

theorem link_abs (hz : s.next s.tail = .null) (hn : .node t m ∉ s.all)
    (hn' : s.next (.node t m) = .null) :
    (s.setNext s.tail (.node t m)).abs = s.abs ++ [s.item (.node t m)] := by
  have hitem : (s.setNext s.tail (.node t m)).item = s.item := funext fun y => item_setNext ..
  rw [abs, show (s.setNext s.tail (.node t m)).head = s.head from rfl,
    link_onward w hz hn hn' w.head, hitem, abs, onward, nodes_cons w.head]
  simp

end items

/-! ### New nodes -/

section own

variable {item : V}

/-- A new node of thread `t`, not yet in the list. -/
def Own (t : T) (s : MsQueue T V) (item : V) (node : Ptr T) : Prop :=
  ∃ m, node = .node t m ∧ m < s.memory.count t ∧ node ∉ s.all ∧ s.next node = .null ∧ s.item node = item

theorem Own.keeps (h : Own u s item x) (k : Keeps t s s') (hu : u ≠ t) : Own u s' item x := by
  obtain ⟨m, rfl, h1, h2, h3, h4⟩ := h
  obtain ⟨hmem, hn⟩ := k.others hu h2
  refine ⟨m, rfl, h1.trans_le (k.count u), hn, ?_, ?_⟩
  · rw [next, hmem]
    exact h3
  · rw [MsQueue.item, hmem]
    exact h4

theorem Own.ne_null (h : Own t s item x) : x ≠ .null := by
  obtain ⟨m, rfl, -⟩ := h
  nofun

variable (w : Wf s)

include w

theorem allocate_act : Act t s (s.allocateStackqueueNode t item).1 :=
  .own (w.not_mem_next t) (fun x hx => s.memory.mem_allocate_of_ne x _ t hx)
    (fun u => s.memory.count_le_allocate _ t u) rfl rfl rfl

theorem allocate_abs : (s.allocateStackqueueNode t item).1.abs = s.abs :=
  own_abs w (w.not_mem_next t) (fun x hx => s.memory.mem_allocate_of_ne x _ t hx) rfl

theorem allocate_all : (s.allocateStackqueueNode t item).1.all = s.all := by
  refine onward_congr w (fun y hy => ?_) w.root
  exact congrArg StackqueueNode.next
    (s.memory.mem_allocate_of_ne y _ t fun h => w.not_mem_next t (h ▸ hy))

theorem allocate_own :
    Own t (s.allocateStackqueueNode t item).1 item (s.allocateStackqueueNode t item).2 := by
  have hmem := s.memory.mem_allocate_self ⟨item, .null⟩ t
  refine ⟨s.memory.count t, rfl, s.memory.count_allocate_self _ t, ?_, ?_, ?_⟩
  · rw [allocate_all w]
    exact w.not_mem_next t
  · exact congrArg StackqueueNode.next hmem
  · exact congrArg StackqueueNode.item hmem

variable (h : Own t s item x)

include h

theorem Own.link_act (hz : s.next s.tail = .null) : Act t s (s.setNext s.tail x) := by
  obtain ⟨m, rfl, h1, h2, h3, -⟩ := h
  exact .link hz h2 h1 h3

theorem Own.link_next : (s.setNext s.tail x).next x = .null := by
  obtain ⟨m, rfl, -, h2, h3, -⟩ := h
  rw [next_setNext_of_ne]
  · exact h3
  · exact fun he => h2 (he ▸ w.tail)

theorem Own.link_onward (hz : s.next s.tail = .null) (hy : y ∈ s.all) :
    (s.setNext s.tail x).onward y = s.onward y ++ [x] := by
  obtain ⟨m, rfl, -, h2, h3, -⟩ := h
  exact MsQueue.link_onward w hz h2 h3 hy

theorem Own.link_abs (hz : s.next s.tail = .null) : (s.setNext s.tail x).abs = s.abs ++ [item] := by
  obtain ⟨m, rfl, -, h2, h3, h4⟩ := h
  rw [MsQueue.link_abs w hz h2 h3, h4]

end own

/-! ### The queue of the constructor -/

section initial

variable [Zero V]

theorem onward_empty : (empty : MsQueue T V).onward .head = [.head] :=
  Path.nodes_eq ⟨rfl, nofun, rfl⟩

theorem Wf.initial : Wf (empty : MsQueue T V) := by
  have hmem : .head ∈ (empty : MsQueue T V).all := by
    rw [all, onward_empty]
    exact List.mem_singleton_self _
  refine ⟨hmem, hmem, hmem, Or.inl rfl, fun x hx => ?_, nofun⟩
  rw [all, onward_empty] at hx
  exact Or.inl (List.mem_singleton.mp hx)

theorem behind_empty : (empty : MsQueue T V).Behind := Wf.initial.head

theorem abs_empty : (empty : MsQueue T V).abs = [] := Wf.initial.abs_nil rfl

end initial

/-! ### The items that clients add -/

/-- The items of the queue are those that clients add. -/
def Filled [Zero V] (s : MsQueue T V) : Prop := ∀ v ∈ s.abs, v ≠ 0

theorem Filled.initial [Zero V] : (empty : MsQueue T V).Filled := by
  intro v hv
  rw [abs_empty] at hv
  cases hv

theorem Filled.add [Zero V] {s' : MsQueue T V} {item : V} (h : s.Filled) (hi : item ≠ 0)
    (ha : s'.abs = s.abs ∨ s'.abs = s.abs ++ [item]) : s'.Filled := by
  intro v hv
  rcases ha with ha | ha <;> rw [ha] at hv
  · exact h v hv
  · rcases List.mem_append.mp hv with hv | hv
    · exact h v hv
    · cases List.mem_singleton.mp hv
      exact hi

end MsQueue

end Ascylib
