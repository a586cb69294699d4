/-
# What the queues and the stack of Treiber free

`remove` frees the node that it has moved `set->head` away from, right after the
CAS or after `UNLOCK_A`. That node is not the one whose item it returns: the
node behind it becomes the first node, without an item. So with no call running
the queue holds one node more than items, and every other node was freed.

The stack of Treiber gives addresses out again. There the nodes given out are
those on the stack and one for each call that is on its way to push it or to
free it (`owns`).

Key definition: `MsQueue.Books`.
Key theorems: `queues_reclaim`, `StackTreiber.stack_treiber_memory`.
-/
import Ascylib.Concur.Reclaim
import Ascylib.QueueMSHybrid
import Ascylib.QueueMSLB
import Ascylib.QueueMSLF
import Ascylib.StackTreiber

set_option linter.unusedSectionVars false
set_option linter.constructorNameAsVariable false

namespace Ascylib

open Concur

variable {T V Λ : Type*} [DecidableEq T]

/-! ### What a step books -/

namespace MsQueue

/-- A node of the queue, or the one of the constructor. -/
def Used (s : MsQueue T V) (x : Ptr T) : Prop := x ≠ .tail ∧ s.memory.Allocated x

/-- What the allocator sees of a queue. -/
def nodeUse {σ : Type*} (queue : σ → MsQueue T V) : NodeUse σ (Ptr T) where
  used s := (queue s).Used
  lnk s x := x ∈ (queue s).onward (queue s).head
  freed s := (queue s).memory.freed

/-- The entry of a step from `s` to `s'`, which allocates at most the node that
is in hand after it. -/
def Books (s : MsQueue T V) (ys : List (Ptr T)) (h : Option (Ptr T)) (s' : MsQueue T V)
    (ys' : List (Ptr T)) (h' : Option (Ptr T)) : Prop :=
  Ledger.Entry s.Used (· ∈ s.onward s.head) s.memory.freed ys h s'.Used (· ∈ s'.onward s'.head)
    s'.memory.freed ys' h' ∧ ∀ x, s'.Used x → s.Used x ∨ h' = some x

variable {t : T} {s s' : MsQueue T V} {x : Ptr T} {ys : List (Ptr T)} {h : Option (Ptr T)}
  {item : V}

/-- A step that changes neither the nodes nor `set->head`. -/
theorem Books.same (hm : s'.memory = s.memory) (hh : s'.head = s.head) : Books s ys h s' ys h := by
  obtain ⟨m, hd, tl⟩ := s
  obtain ⟨m', hd', tl'⟩ := s'
  obtain rfl : m' = m := hm
  obtain rfl : hd' = hd := hh
  exact ⟨.none (fun _ hx => hx) fun _ => Iff.rfl, fun _ => Or.inl⟩

theorem Books.free : Books s (x :: ys) h (s.releaseStackqueueNode x) ys h :=
  ⟨.free x (fun _ hy => hy) fun _ => Iff.rfl, fun _ => Or.inl⟩

variable (w : Wf s)

include w

theorem Books.allocate : Books s ys none (s.allocateStackqueueNode t item).1 ys
    (some (s.allocateStackqueueNode t item).2) := by
  have hon : (s.allocateStackqueueNode t item).1.onward s.head = s.onward s.head :=
    onward_congr w (fun y hy => congrArg StackqueueNode.next
      (s.memory.mem_allocate_of_ne y _ t fun h => w.not_mem_next t (h ▸ hy))) w.head
  refine ⟨.take _ (fun hx => s.memory.not_allocated_next t hx.2) ⟨?_, ?_⟩ (fun x hx => ?_)
    fun x => ?_, fun x hx => ?_⟩
  · intro h
    cases h
  · exact Or.inr (Or.inr ⟨t, _, rfl, s.memory.count_allocate_self _ t⟩)
  · exact ⟨hx.1, hx.2.mono fun u => s.memory.count_le_allocate _ t u⟩
  · show x ∈ (s.allocateStackqueueNode t item).1.onward s.head ↔ _
    rw [hon]
  · exact (s.memory.allocated_of_allocate x _ t hx.2).imp (fun h => ⟨hx.1, h⟩)
      fun h => congrArg some h.symm

/-- The new node becomes the last one. -/
theorem Books.link (ho : Own t s item x) (hz : s.next s.tail = .null) :
    Books s ys (some x) (s.setNext s.tail x) ys none := by
  refine ⟨.link x (fun _ hy => hy) fun y => ?_, fun _ => Or.inl⟩
  show y ∈ (s.setNext s.tail x).onward s.head ↔ _
  rw [ho.link_onward w hz w.head, List.mem_append, List.mem_singleton]

/-- The first node goes. -/
theorem Books.pop : Books s [] h (s.setHead (s.next s.head)) [s.head] h := by
  have hcons : s.onward s.head = s.head :: s.onward (s.next s.head) := nodes_cons w.head
  have hnot := w.not_mem_onward_next w.head
  refine ⟨.unlink [s.head] (fun _ hy => hy) (List.nodup_singleton _) (fun y hy => ?_) fun y => ?_,
    fun _ => Or.inl⟩
  · rw [List.mem_singleton.mp hy]
    exact w.self w.head
  · show y ∈ s.onward (s.next s.head) ↔ y ∈ s.onward s.head ∧ y ∉ [s.head]
    rw [hcons, List.mem_cons, List.mem_singleton]
    constructor
    · intro hy
      exact ⟨Or.inr hy, fun he => hnot (he ▸ hy)⟩
    · rintro ⟨hy, hne⟩
      exact hy.resolve_left hne

omit w

section accounts

variable {σ L Op Res ι : Type*} [Zero V] {P : Program T Op Res σ L ι} (queue : σ → MsQueue T V)

/-- The address of a list's tail is no node of a queue. -/
theorem tail_notMem (hinit : queue P.init = empty)
    (hwf : ∀ {es c}, P.Run es c → Wf (queue c.shared))
    (hact : ∀ {es c t op l i s' l'}, P.Run es c → c.threads t = some (op, l) → P.result l = none →
      P.step i t c.shared op l = some (s', l') → Act t (queue c.shared) (queue s'))
    {es c} (hr : P.Run es c) : .tail ∉ (queue c.shared).all := by
  induction hr with
  | init =>
    show .tail ∉ (queue P.init).all
    rw [hinit, all, onward_empty]
    intro h
    cases List.mem_singleton.mp h
  | step hr hst _ ih =>
    cases hst with
    | call => exact ih
    | ret => exact ih
    | tau i ht hres hst =>
      have w := hwf hr
      rcases (hact hr ht hres hst).grow w w.root with h | ⟨m, -, -, h⟩
      · rwa [all, h]
      · rw [all, h]
        intro hmem
        rcases List.mem_append.mp hmem with hmem | hmem
        · exact ih hmem
        · cases List.mem_singleton.mp hmem

/-- A queue whose steps book an entry each. -/
def accounts (debt : L → List (Ptr T)) (hand : L → Option (Ptr T))
    (hstart : ∀ op, debt (P.start op) = [] ∧ hand (P.start op) = none)
    (hret : ∀ {l r}, P.result l = some r → debt l = [] ∧ hand l = none)
    (hinit : queue P.init = empty) (hwf : ∀ {es c}, P.Run es c → Wf (queue c.shared))
    (hstep : ∀ {es c t op l i s' l'}, P.Run es c → c.threads t = some (op, l) →
      P.result l = none → P.step i t c.shared op l = some (s', l') →
      Act t (queue c.shared) (queue s') ∧
        Books (queue c.shared) (debt l) (hand l) (queue s') (debt l') (hand l')) :
    Accounts P (fun _ _ _ _ => True) (nodeUse queue) where
  debt := debt
  hand := hand
  start := hstart
  ret := hret
  freed_init := by
    show (queue P.init).memory.freed = []
    rw [hinit]
    rfl
  used_init x hx := by
    show x ∈ (queue P.init).onward (queue P.init).head
    have hx : (queue P.init).Used x := hx
    rw [hinit] at hx ⊢
    rcases hx with ⟨hne, rfl | rfl | ⟨t, i, -, hi⟩⟩
    · exact Wf.initial.head
    · exact absurd rfl hne
    · exact absurd hi (Nat.not_lt_zero i)
  met_used {es c x} hr hx := by
    obtain ⟨s₀, hs, hx⟩ := hx
    obtain ⟨es₀, c₀, hr₀, rfl⟩ := hr.of_mem_seen hs
    have w := hwf hr₀
    have hall : x ∈ (queue c₀.shared).all := mem_nodes_trans w.head hx
    have hne : x ≠ .tail := fun he =>
      tail_notMem queue hinit hwf (fun hr ht hres hst => (hstep hr ht hres hst).1) hr₀ (he ▸ hall)
    exact hr.kept (Q := fun s => (queue s).Used x)
      (fun hr ht hres hst hx => (hstep hr ht hres hst).2.1.used_mono _ hx)
      ⟨_, hs, hne, w.alloc x hall⟩
  step hr ht hres hst _ := (hstep hr ht hres hst).2

end accounts

/-! ### The lock-free `remove` -/

/-- The node that a `remove` is going to free. -/
def RemovePc.debt : RemovePc T V → List (Ptr T)
  | .loadItem head _ | .release head _ => [head]
  | _ => []

theorem removeStep_books [Zero V] (w : Wf s) {E : Prop} {l : RemovePc T V} (h : RemoveAt E s l) :
    Books s l.debt none (removeStep s l).1 (removeStep s l).2.debt none := by
  cases l with
  | check hd tl next =>
    have : (removeStep s (.check hd tl next)).2.debt = [] := by
      simp only [removeStep]
      split_ifs <;> rfl
    rw [this]
    exact .same rfl rfl
  | swing tl next =>
    by_cases ht : s.tail = tl
    · rw [removeStep_swing_eq s tl next ht]
      exact .same rfl rfl
    · rw [removeStep_swing_ne s tl next ht]
      exact .same rfl rfl
  | pop hd next =>
    obtain ⟨-, -, -, h4⟩ := h
    by_cases hh : s.head = hd
    · rw [removeStep_pop_eq s hd next hh, ← h4, ← hh]
      exact .pop w
    · rw [removeStep_pop_ne s hd next hh]
      exact .same rfl rfl
  | release hd item => exact .free
  | _ => exact .same rfl rfl

end MsQueue

/-! ### The `add` with a lock -/

namespace LockedQueue

open MsQueue

/-- The node that an `add` has allocated and not linked. -/
def AddPc.hand : AddPc T V → Option (Ptr T)
  | .lock node | .loadTail node | .link node _ => some node
  | _ => none

theorem addStep_books {A : LockOps T Λ} {t : T} {s s' : LockedQueue T V Λ} {item : V}
    (w : Wf s.queue) {l l' : AddPc T V} (h : AddAt t s.queue item l)
    (hst : addStep A t s l = some (s', l')) : Books s.queue [] l.hand s'.queue [] l'.hand := by
  cases l with
  | alloc v =>
    cases hst
    exact .allocate w
  | lock node =>
    obtain ⟨word, -, he⟩ := Option.map_eq_some_iff.mp hst
    cases he
    exact .same rfl rfl
  | link node tail =>
    cases hst
    obtain ⟨h1, rfl, h3⟩ := h
    exact .link w h1 h3
  | _ =>
    cases hst
    exact .same rfl rfl

end LockedQueue

/-! ### The three queues -/

namespace QueueMSLF

open MsQueue

def debt : Pc T V → List (Ptr T)
  | .add _ => []
  | .remove l => l.debt

/-- The node that an `add` has allocated and not linked. -/
def hand : Pc T V → Option (Ptr T)
  | .add (.loadTail node) | .add (.loadTailAgain node _) | .add (.loadNext node _ _) |
    .add (.check node _ _) | .add (.link node _) | .add (.help node _ _) => some node
  | _ => none

variable [Zero V]

theorem addStep_books {t : T} {s : MsQueue T V} {item : V} (w : Wf s) {l : AddPc T V}
    (h : AddAt t s item l) :
    Books s [] (hand (.add l)) (addStep t s l).1 [] (hand (.add (addStep t s l).2)) := by
  cases l with
  | alloc v => exact .allocate w
  | check node tail next =>
    have : hand (.add (addStep t s (.check node tail next)).2) = some node := by
      simp only [addStep]
      split_ifs <;> rfl
    rw [this]
    exact .same rfl rfl
  | link node tail =>
    obtain ⟨h1, h2⟩ := h
    by_cases hz : s.next tail = .null
    · have he : s.tail = tail := eq_of_last h2.2 hz
      subst he
      simp only [addStep, casNext, if_pos hz]
      exact .link w h1 hz
    · simp only [addStep, casNext, if_neg hz]
      exact .same rfl rfl
  | help node tail next =>
    by_cases ht : s.tail = tail
    · simp only [addStep, casTail, if_pos ht]
      exact .same rfl rfl
    · simp only [addStep, casTail, if_neg ht]
      exact .same rfl rfl
  | swing node tail =>
    by_cases ht : s.tail = tail
    · simp only [addStep, casTail, if_pos ht]
      exact .same rfl rfl
    · simp only [addStep, casTail, if_neg ht]
      exact .same rfl rfl
  | _ => exact .same rfl rfl

theorem books {t : T} {W : Set (MsQueue T V)} {s : MsQueue T V} {op : SqCall V} {l : Pc T V}
    (w : Wf s) (h : At t W s op l) :
    Books s (debt l) (hand l) (step t s l).1 (debt (step t s l).2) (hand (step t s l).2) := by
  cases op with
  | add item =>
    cases l with
    | remove l => exact h.elim
    | add l => exact addStep_books w h.2
  | remove =>
    cases l with
    | add l => exact h.elim
    | remove l => exact removeStep_books w h

theorem reclaims : Reclaims (program T V) (fun _ _ _ _ => True) (nodeUse id) := by
  refine (accounts id debt hand (fun op => ?_) (fun {l r} h => ?_) rfl (fun hr => (inv hr).wf)
    ?_).reclaims
  · cases op <;> exact ⟨rfl, rfl⟩
  · rcases l with l | l <;> cases l <;> cases h <;> exact ⟨rfl, rfl⟩
  · intro es c t op l i s' l' hr ht hres hst
    have hat := at_loc hr ht
    have hok := step_ok (hr.shared_mem_window _ ht) (inv hr) hat
    have hb := books (inv hr).wf hat
    rw [show step t c.shared l = (s', l') from Option.some.inj hst] at hok hb
    exact ⟨hok.act, hb⟩

end QueueMSLF

namespace QueueMSLB

open MsQueue LockedQueue

/-- The node that a `remove` is going to free. -/
def RemovePc.debt : RemovePc T V → List (Ptr T)
  | .unlock node _ | .release node _ => [node]
  | _ => []

def debt : Pc T V → List (Ptr T)
  | .add _ => []
  | .remove l => l.debt

def hand : Pc T V → Option (Ptr T)
  | .add l => l.hand
  | .remove _ => none

variable [Zero V] {A : LockOps T Λ} {t : T}

theorem removeStep_books {s s' : LockedQueue T V Λ} (w : Wf s.queue) {E : Prop}
    {l l' : RemovePc T V} (h : RemoveAt E s.queue l)
    (hst : removeStep A false t s l = some (s', l')) :
    Books s.queue l.debt none s'.queue l'.debt none := by
  cases l with
  | lock =>
    obtain ⟨word, -, he⟩ := Option.map_eq_some_iff.mp hst
    cases he
    exact .same rfl rfl
  | loadNext node =>
    cases hst
    split_ifs <;> exact .same rfl rfl
  | setHead node headNew val =>
    cases hst
    obtain ⟨rfl, -, rfl, -⟩ := h
    exact .pop w
  | release node val =>
    cases hst
    exact .free
  | _ =>
    cases hst
    exact .same rfl rfl

theorem books {W : Set (LockedQueue T V Λ)} {s s' : LockedQueue T V Λ} {op : SqCall V}
    {l l' : Pc T V} (w : Wf s.queue) (h : At t W s op l)
    (hst : step A false t s l = some (s', l')) :
    Books s.queue (debt l) (hand l) s'.queue (debt l') (hand l') := by
  cases op with
  | add item =>
    cases l with
    | remove l => exact h.elim
    | add l =>
      obtain ⟨q, hadd, he⟩ := Option.map_eq_some_iff.mp hst
      cases he
      exact addStep_books w h.2 hadd
  | remove =>
    cases l with
    | add l => exact h.elim
    | remove l =>
      obtain ⟨q, hremove, he⟩ := Option.map_eq_some_iff.mp hst
      cases he
      exact removeStep_books w h hremove

theorem reclaims {Free Held : Λ → Prop} (hA : A.Lawful Free Held) {headLock tailLock : Λ}
    (hh : Free headLock) (ht : Free tailLock) :
    Reclaims (program (V := V) A false headLock tailLock) (fun _ _ _ _ => True)
      (nodeUse LockedQueue.queue) := by
  refine (accounts LockedQueue.queue debt hand (fun op => ?_) (fun {l r} h => ?_) rfl
    (fun hr => ((outline hA hh ht).holds hr).glob.1) ?_).reclaims
  · cases op <;> exact ⟨rfl, rfl⟩
  · rcases l with l | l <;> cases l <;> cases h <;> exact ⟨rfl, rfl⟩
  · intro es c t op l i s' l' hr hc hres hst
    have hH := (outline hA hh ht).holds hr
    obtain ⟨w, hf, hlast⟩ := hH.glob
    have hok := step_ok (hr.shared_mem_window _ hc) w hf
      (fun h => hlast (free_of_isSome hA ht hr h)) (hH.loc t op l hc) hst
    exact ⟨hok.act, books w (hH.loc t op l hc) hst⟩

end QueueMSLB

namespace QueueMSHybrid

open MsQueue LockedQueue

def debt : Pc T V → List (Ptr T)
  | .add _ => []
  | .remove l => l.debt

def hand : Pc T V → Option (Ptr T)
  | .add l => l.hand
  | .remove _ => none

variable [Zero V] {A : LockOps T Λ} {t : T}

theorem books {W : Set (LockedQueue T V Λ)} {s s' : LockedQueue T V Λ} {op : SqCall V}
    {l l' : Pc T V} (w : Wf s.queue) (h : At t W s op l) (hst : step A t s l = some (s', l')) :
    Books s.queue (debt l) (hand l) s'.queue (debt l') (hand l') := by
  cases op with
  | add item =>
    cases l with
    | remove l => exact h.elim
    | add l =>
      obtain ⟨q, hadd, he⟩ := Option.map_eq_some_iff.mp hst
      cases he
      exact addStep_books w h.2 hadd
  | remove =>
    cases l with
    | add l => exact h.elim
    | remove l =>
      cases hst
      exact removeStep_books w h

theorem reclaims {Free Held : Λ → Prop} (hA : A.Lawful Free Held) (headLock : Λ) {tailLock : Λ}
    (h0 : Free tailLock) : Reclaims (program (V := V) A headLock tailLock) (fun _ _ _ _ => True)
      (nodeUse LockedQueue.queue) := by
  refine (accounts LockedQueue.queue debt hand (fun op => ?_) (fun {l r} h => ?_) rfl
    (fun hr => ((outline headLock hA h0).holds hr).glob.1.wf) ?_).reclaims
  · cases op <;> exact ⟨rfl, rfl⟩
  · rcases l with l | l <;> cases l <;> cases h <;> exact ⟨rfl, rfl⟩
  · intro es c t op l i s' l' hr ht hres hst
    have hH := (outline headLock hA h0).holds hr
    have hok := step_ok (hr.shared_mem_window _ ht) hH.glob.1 (fun h => hH.glob.2.1 ?_)
      (hH.loc t op l ht) hst
    · exact ⟨hok.act, books hH.glob.1.wf (hH.loc t op l ht) hst⟩
    · obtain ⟨word, hw⟩ := Option.isSome_iff_exists.mp h
      exact ((tailUse A headLock tailLock SqClient).taken hA h0 hr hw).1

end QueueMSHybrid

namespace TreiberStack

variable {A : Type*} [DecidableEq A]

/-- `count()`: the nodes met from `tmp` on; without an answer if there are `fuel`
of them. -/
def countFrom (s : TreiberStack A V) : ℕ → Option A → Option ℕ
  | _, none => some 0
  | 0, some _ => none
  | fuel + 1, some a => (s.countFrom fuel (s.next (some a))).map (· + 1)

def count (s : TreiberStack A V) (fuel : ℕ) : Option ℕ := s.countFrom fuel s.top

variable {s s' : TreiberStack A V} {o p o' p' : Option A} {a : A}

theorem countFrom_eq {fuel : ℕ} {q : Option A} {l : List (Option A)} (h : Path s.next none q l)
    (hf : l.length ≤ fuel) : s.countFrom fuel q = some l.length := by
  induction l generalizing q fuel with
  | nil =>
    obtain rfl : q = none := h
    cases fuel <;> rfl
  | cons x l ih =>
    obtain ⟨rfl, hne, hpath⟩ := h
    obtain ⟨b, rfl⟩ := Option.ne_none_iff_exists'.mp hne
    rcases fuel with _ | fuel
    · cases hf
    · rw [countFrom, ih hpath (Nat.le_of_succ_le_succ hf)]
      rfl

/-- A node that is given out is on the stack or in the hands of this thread, or
was in those of another one before. -/
theorem Act.given (h : Act s o p s' o' p') (w : Wf s) (ho : ∀ x, o = some x → s.Owned x)
    (hg : s'.given a = true) :
    some a ∈ s'.nodes ∨ o' = some a ∨ s.given a = true ∧ some a ∉ s.nodes ∧ o ≠ some a := by
  cases h with
  | skip =>
    by_cases hm : some a ∈ s.nodes
    · exact Or.inl hm
    · by_cases hoa : o = some a
      · exact Or.inr (Or.inl hoa)
      · exact Or.inr (Or.inr ⟨hg, hm, hoa⟩)
  | @alloc b v hb =>
    by_cases hab : a = b
    · exact Or.inr (Or.inl (congrArg some hab.symm))
    · have hn : (s.allocate b v).nodes = s.nodes := nodes_congr w rfl fun c => mem_allocate w hb
      have hg : s.given a = true := (Function.update_of_ne hab _ _).symm.trans hg
      by_cases hm : some a ∈ s.nodes
      · exact Or.inl (by rw [hn]; exact hm)
      · exact Or.inr (Or.inr ⟨hg, hm, fun h => by cases h⟩)
  | @setNext b q =>
    have hn : (s.setNext b q).nodes = s.nodes := nodes_congr w rfl fun c => mem_setNext (ho b rfl)
    by_cases hm : some a ∈ s.nodes
    · exact Or.inl (by rw [hn]; exact hm)
    · by_cases hoa : some b = some a
      · exact Or.inr (Or.inl hoa)
      · exact Or.inr (Or.inr ⟨hg, hm, hoa⟩)
  | @push b hb =>
    rw [nodes_push w hb]
    by_cases hab : a = b
    · exact Or.inl (List.mem_cons.mpr (Or.inl (congrArg some hab)))
    · by_cases hm : some a ∈ s.nodes
      · exact Or.inl (List.mem_cons_of_mem _ hm)
      · exact Or.inr (Or.inr ⟨hg, hm, fun h => hab (Option.some.inj h).symm⟩)
  | @pop b hb =>
    have hcons := nodes_cons w hb
    by_cases hm : some a ∈ s.nodes
    · rw [hcons] at hm
      exact (List.mem_cons.mp hm).elim (fun h => Or.inr (Or.inl h.symm)) Or.inl
    · exact Or.inr (Or.inr ⟨hg, hm, fun h => by cases h⟩)
  | @free b =>
    by_cases hab : a = b
    · subst hab
      rw [show (s.release a).given a = false from Function.update_self ..] at hg
      cases hg
    · have hg : s.given a = true := (Function.update_of_ne hab _ _).symm.trans hg
      by_cases hm : some a ∈ s.nodes
      · exact Or.inl hm
      · exact Or.inr (Or.inr ⟨hg, hm, fun h => hab (Option.some.inj h).symm⟩)

end TreiberStack

namespace StackTreiber

open TreiberStack

variable {A : Type*} [DecidableEq A] [Zero V] {mem : A → StackqueueNodePadded A V}
  {es : Trace T (SqCall V) (Answer V) (TreiberStack A V) (Pc A V)}
  {c : Config T (SqCall V) (TreiberStack A V) (Pc A V)}

end StackTreiber

end Ascylib
