/-
# The stack with one lock is last in, first out

With the lock free at the start the calls of `stack_lock.h` are linearizable to
a stack. An `add` writes to its own node and to `top`, a `remove` to `top`, and
these are the writes of the stack of Treiber (`TreiberStack.Act`) on the memory
as that stack sees it (`flat`): the lock takes the place of the CAS. What a
`remove` reads after it has given the lock back is its own node.

No node is freed twice or on the stack, and with no call running each node that
was allocated is on the stack or was freed.

Key definitions: `StackLock.flat`, `StackLock.At`, `StackLock.count`.
Key theorem: `StackLock.stack_lock_linearizable`.
-/
import Ascylib.Concur.Reclaim
import Ascylib.StackLock
import Ascylib.StackTreiber

set_option linter.unusedSectionVars false

namespace Ascylib

open Concur

namespace StackLock

open TreiberStack (Act Owned)

variable {T V Λ : Type*} [DecidableEq T]

/-- The node's thread and number; none for `NULL`. -/
def addr : Ptr T → Option (T × ℕ)
  | .node t i => some (t, i)
  | _ => none

/-- The stack as a stack of Treiber. -/
def flat (s : LockedStack T V Λ) : TreiberStack (T × ℕ) V where
  mem a := ⟨(s.memory.mem (.node a.1 a.2)).item, addr (s.memory.mem (.node a.1 a.2)).next⟩
  top := addr s.top
  given a := decide (a.2 < s.memory.count a.1 ∧ .node a.1 a.2 ∉ s.memory.freed)

/-- The items, newest first. -/
noncomputable def abs (s : LockedStack T V Λ) : List V := (flat s).abs

/-- `count()`: the nodes met from `tmp` on; `none` when it needs more than `fuel`
rounds. -/
def countFrom (s : LockedStack T V Λ) : ℕ → Ptr T → Option ℕ
  | 0, _ => none
  | fuel + 1, tmp =>
    if tmp = .null then some 0 else (countFrom s fuel (s.memory.mem tmp).next).map (· + 1)

def count (s : LockedStack T V Λ) (fuel : ℕ) : Option ℕ := countFrom s fuel s.top

/-- The pointers of the stack are `NULL` or lead to a node, and what was freed
was allocated. -/
structure Clean (s : LockedStack T V Λ) : Prop where
  top : addr s.top = none → s.top = .null
  next : ∀ x, addr (s.memory.mem x).next = none → (s.memory.mem x).next = .null
  freed : ∀ t i, .node t i ∈ s.memory.freed → i < s.memory.count t

/-- A well-formed stack, with no 0 among its items. -/
structure Wf [Zero V] (s : LockedStack T V Λ) : Prop where
  clean : Clean s
  wf : TreiberStack.Wf (flat s)
  filled : ∀ v ∈ abs s, v ≠ 0

variable {s s' : LockedStack T V Λ} {a : T × ℕ} {x q : Ptr T} {t : T} {v : V}

theorem addr_eq_some : addr x = some a ↔ x = .node a.1 a.2 := by
  obtain ⟨u, i⟩ := a
  cases x <;> simp [addr]

/-! ### The writes, flat -/

theorem flat_ext {p q : TreiberStack (T × ℕ) V} (h1 : ∀ a, p.mem a = q.mem a) (h2 : p.top = q.top)
    (h3 : ∀ a, p.given a = q.given a) : p = q := by
  cases p
  cases q
  obtain rfl := funext h1
  obtain rfl := h2
  obtain rfl := funext h3
  rfl

theorem flat_allocate (h : Clean s) :
    flat { s with memory := (s.memory.allocate t ⟨v, .null⟩).1 } =
      (flat s).allocate (t, s.memory.count t) v := by
  have hnode : ∀ a : T × ℕ, a ≠ (t, s.memory.count t) →
      Ptr.node a.1 a.2 ≠ .node t (s.memory.count t) :=
    fun a ha he => ha (Prod.ext_iff.mpr (by simpa using he))
  refine flat_ext (fun a => ?_) rfl fun a => ?_
  · by_cases ha : a = (t, s.memory.count t)
    · subst ha
      simp only [flat, TreiberStack.allocate, Function.update_self]
      rw [show (s.memory.allocate t ⟨v, .null⟩).1.mem (.node t (s.memory.count t)) = ⟨v, .null⟩ from
        s.memory.mem_allocate_self ⟨v, .null⟩ t]
      rfl
    · simp only [flat, TreiberStack.allocate, Function.update_of_ne ha]
      rw [s.memory.mem_allocate_of_ne _ _ t (hnode a ha)]
  · by_cases ha : a = (t, s.memory.count t)
    · subst ha
      simp only [flat, TreiberStack.allocate, Function.update_self, decide_eq_true_eq]
      exact ⟨s.memory.count_allocate_self _ t, fun hf => lt_irrefl _ (h.freed _ _ hf)⟩
    · simp only [flat, TreiberStack.allocate, Function.update_of_ne ha, decide_eq_decide]
      refine and_congr_left fun _ => ?_
      by_cases hu : a.1 = t
      · have hi : a.2 ≠ s.memory.count t := fun hi => ha (Prod.ext hu hi)
        simp only [Memory.allocate, hu, Function.update_self]
        omega
      · simp only [Memory.allocate, Function.update_of_ne hu]

theorem flat_setNext :
    flat { s with memory := s.memory.modify (.node a.1 a.2) fun n => { n with next := q } } =
      (flat s).setNext a (addr q) := by
  refine flat_ext (fun b => ?_) rfl fun b => rfl
  by_cases hb : b = a
  · subst hb
    simp [flat, TreiberStack.setNext]
  · have hne : (Ptr.node b.1 b.2 : Ptr T) ≠ .node a.1 a.2 := fun he =>
      hb (Prod.ext_iff.mpr (by simpa using he))
    simp only [flat, TreiberStack.setNext, Function.update_of_ne hb]
    rw [s.memory.mem_modify_of_ne _ _ _ hne]

theorem flat_release :
    flat { s with memory := s.memory.ssmemFree (.node a.1 a.2) } = (flat s).release a := by
  refine flat_ext (fun b => rfl) rfl fun b => ?_
  by_cases hb : b = a
  · subst hb
    simp [flat, TreiberStack.release, Memory.ssmemFree]
  · have hne : (Ptr.node b.1 b.2 : Ptr T) ≠ .node a.1 a.2 := fun he =>
      hb (Prod.ext_iff.mpr (by simpa using he))
    simp only [flat, TreiberStack.release, Memory.ssmemFree, Function.update_of_ne hb,
      List.mem_cons, hne, false_or]

/-- The first node, where there is one. -/
theorem Wf.top_node [Zero V] (w : Wf s) (h : s.top ≠ .null) :
    ∃ a, s.top = .node a.1 a.2 ∧ (flat s).top = some a ∧ (flat s).given a = true := by
  rcases ha : addr s.top with _ | a
  · exact absurd (w.clean.top ha) h
  · have htop : (flat s).top = some a := ha
    exact ⟨a, addr_eq_some.mp ha, htop, w.wf.given a (TreiberStack.mem_nodes_of_top w.wf htop)⟩

/-! ### What holds at each point of a call -/

/-- The node that a call owns. -/
def owns : Pc T V → Option (T × ℕ)
  | .add (.lock node) => addr node
  | .add (.loadTop node) => addr node
  | .add (.setNext node _) => addr node
  | .add (.setTop node) => addr node
  | .remove (.unlock top) => addr top
  | .remove (.loadItem top) => addr top
  | .remove (.release top _) => addr top
  | _ => none

/-- The node that a call is going to push. -/
def pushes : Pc T V → Option (T × ℕ)
  | .add (.lock node) => addr node
  | .add (.loadTop node) => addr node
  | .add (.setNext node _) => addr node
  | .add (.setTop node) => addr node
  | _ => none

/-- The node is in one thread's hands, with this item. -/
def Has (s : LockedStack T V Λ) (x : Ptr T) (v : V) : Prop :=
  ∃ a, x = .node a.1 a.2 ∧ (flat s).Owned a ∧ (flat s).item a = v

variable [Zero V]

/-- What holds at each local state of a call that has seen the stacks `W`. -/
def At (W : Set (LockedStack T V Λ)) (s : LockedStack T V Λ) : SqCall V → Pc T V → Prop
  | .add item, .add (.alloc v) => v = item ∧ item ≠ 0
  | .add item, .add (.lock node) => Has s node item ∧ item ≠ 0
  | .add item, .add (.loadTop node) => Has s node item ∧ item ≠ 0
  | .add item, .add (.setNext node top) => Has s node item ∧ item ≠ 0 ∧ top = s.top
  | .add item, .add (.setTop node) => Has s node item ∧ item ≠ 0 ∧ (s.memory.mem node).next = s.top
  | .add _, .add .unlock => True
  | .add _, .add .done => True
  | .remove, .remove .lock => True
  | .remove, .remove .loadTop => True
  | .remove, .remove .unlockEmpty => ∃ s₀ ∈ W, abs s₀ = []
  | .remove, .remove (.loadNext top) => top = s.top ∧ top ≠ .null
  | .remove, .remove (.setTop top next) =>
    top = s.top ∧ top ≠ .null ∧ (s.memory.mem top).next = next
  | .remove, .remove (.unlock top) => ∃ v, Has s top v ∧ v ≠ 0
  | .remove, .remove (.loadItem top) => ∃ v, Has s top v ∧ v ≠ 0
  | .remove, .remove (.release top val) => (∃ v, Has s top v) ∧ val ≠ 0
  | .remove, .remove (.done val) => val ≠ 0
  | .remove, .remove .empty => ∃ s₀ ∈ W, abs s₀ = []
  | _, _ => False

/-- The result of a call that has taken effect. -/
def lin (s : LockedStack T V Λ) (_ : SqCall V) : Pc T V → Option (Answer V)
  | .add .unlock => some (.flag true)
  | .add .done => some (.flag true)
  | .remove (.unlock top) => some (.val (s.memory.mem top).item)
  | .remove (.loadItem top) => some (.val (s.memory.mem top).item)
  | .remove (.release _ val) => some (.val val)
  | .remove (.done val) => some (.val val)
  | _ => none

variable {A : LockOps T Λ} {W : Set (LockedStack T V Λ)} {op op₁ : SqCall V} {l l' l₁ : Pc T V}

/-- A step of the stack. -/
structure StepOk (W : Set (LockedStack T V Λ)) (s : LockedStack T V Λ) (op : SqCall V) (l : Pc T V)
    (s' : LockedStack T V Λ) (l' : Pc T V) : Prop where
  act : Act (flat s) (owns l) (pushes l) (flat s') (owns l') (pushes l')
  clean : Clean s'
  filled : ∀ v ∈ abs s', v ≠ 0
  next : At (insert s' W) s' op l'
  point : (lin s' op l' = lin s op l ∧ abs s' = abs s) ∨
    (lin s op l = none ∧ ∃ r, lin s' op l' = some r ∧
      (stackObject V).apply op (abs s) = (abs s', r))

theorem At.owned (h : At W s op l) (a : T × ℕ) (ha : owns l = some a) : (flat s).Owned a := by
  have hhas : ∀ {x v}, Has s x v → addr x = some a → (flat s).Owned a := by
    rintro x v ⟨b, rfl, hb, -⟩ he
    cases he
    exact hb
  rcases op with item | _ <;> rcases l with l | l
  · cases l
    case lock | loadTop | setNext | setTop => exact hhas h.1 ha
    all_goals cases ha
  · exact h.elim
  · exact h.elim
  · cases l
    case unlock | loadItem =>
      obtain ⟨v, h1, -⟩ := h
      exact hhas h1 ha
    case release =>
      obtain ⟨⟨v, h1⟩, -⟩ := h
      exact hhas h1 ha
    all_goals cases ha

/-- A step that leaves nodes and `top` alone. -/
theorem lock_ok (w : Wf s) (hf : flat s' = flat s) (hm : s'.memory = s.memory) (ht : s'.top = s.top)
    (ho : owns l' = owns l) (hp : pushes l' = pushes l) (h : At (insert s' W) s' op l')
    (hl : lin s' op l' = lin s op l) : StepOk W s op l s' l' := by
  have habs : abs s' = abs s := congrArg TreiberStack.abs hf
  refine ⟨?_, ⟨?_, ?_, ?_⟩, by rw [habs]; exact w.filled, h, Or.inl ⟨hl, habs⟩⟩
  · rw [hf, ho, hp]
    exact .skip
  · rw [ht]
    exact w.clean.top
  · rw [hm]
    exact w.clean.next
  · rw [hm]
    exact w.clean.freed

theorem add_ok (w : Wf s) {item : V} {l l' : AddPc T V} (h : At W s (.add item) (.add l))
    (hst : addStep A t s l = some (s', l')) : StepOk W s (.add item) (.add l) s' (.add l') := by
  cases l with
  | alloc v =>
    obtain ⟨rfl, hv⟩ := h
    obtain ⟨rfl, rfl⟩ : { s with memory := (s.memory.allocate t ⟨v, .null⟩).1 } = s' ∧
        AddPc.lock (s.memory.allocate t ⟨v, .null⟩).2 = l' := Prod.mk.inj (Option.some.inj hst)
    have hfl : flat { s with memory := (s.memory.allocate t ⟨v, .null⟩).1 } = _ :=
      flat_allocate w.clean
    have hg : (flat s).given (t, s.memory.count t) = false := by simp [flat]
    have hact : Act (flat s) none none ((flat s).allocate (t, s.memory.count t) v)
        (some (t, s.memory.count t)) (some (t, s.memory.count t)) := .alloc hg
    have habs : abs { s with memory := (s.memory.allocate t ⟨v, .null⟩).1 } = abs s := by
      rw [abs, hfl]
      exact TreiberStack.abs_congr w.wf rfl fun b => TreiberStack.mem_allocate w.wf hg
    refine ⟨by rw [hfl]; exact hact, ⟨w.clean.top, fun x hx => ?_, fun u i hu => ?_⟩,
      by rw [habs]; exact w.filled, ⟨⟨(t, s.memory.count t), rfl, ?_, ?_⟩, hv⟩,
      Or.inl ⟨rfl, habs⟩⟩
    · by_cases hxn : x = .node t (s.memory.count t)
      · subst hxn
        exact congrArg StackqueueNode.next (s.memory.mem_allocate_self ⟨v, .null⟩ t)
      · have hm := s.memory.mem_allocate_of_ne x ⟨v, .null⟩ t hxn
        simp only [hm] at hx ⊢
        exact w.clean.next x hx
    · exact (w.clean.freed u i hu).trans_le (s.memory.count_le_allocate _ t u)
    · rw [hfl]
      exact (hact.wf w.wf nofun).2 _ rfl
    · rw [hfl]
      simp [TreiberStack.allocate, TreiberStack.item]
  | lock node =>
    obtain ⟨u, -, he⟩ := Option.map_eq_some_iff.mp hst
    cases he
    exact lock_ok w rfl rfl rfl rfl rfl h rfl
  | loadTop node =>
    cases hst
    exact lock_ok w rfl rfl rfl rfl rfl ⟨h.1, h.2, rfl⟩ rfl
  | setNext node top =>
    obtain ⟨⟨a, rfl, ho, hi⟩, hv, rfl⟩ := h
    cases hst
    have hfl := flat_setNext (s := s) (a := a) (q := s.top)
    have hact : Act (flat s) (some a) (some a) ((flat s).setNext a (addr s.top)) (some a)
        (some a) := .setNext
    have hown : ∀ x, (some a : Option (T × ℕ)) = some x → (flat s).Owned x := by
      rintro x ⟨⟩
      exact ho
    have habs : abs { s with memory := s.memory.modify (.node a.1 a.2) fun n =>
        { n with next := s.top } } = abs s := by
      rw [abs, hfl]
      exact TreiberStack.abs_congr w.wf rfl fun b => TreiberStack.mem_setNext ho
    refine ⟨by rw [hfl]; exact hact, ⟨w.clean.top, fun x hx => ?_, w.clean.freed⟩,
      by rw [habs]; exact w.filled, ⟨⟨a, rfl, ?_, ?_⟩, hv, ?_⟩, Or.inl ⟨rfl, habs⟩⟩
    · rcases eq_or_ne x (.node a.1 a.2) with rfl | hx'
      · simp only [Memory.mem_modify_self] at hx ⊢
        exact w.clean.top hx
      · simp only [s.memory.mem_modify_of_ne _ _ _ hx'] at hx ⊢
        exact w.clean.next x hx
    · rw [hfl]
      exact (hact.wf w.wf hown).2 a rfl
    · rw [hfl]
      simpa [TreiberStack.setNext, TreiberStack.item] using hi
    · simp
  | setTop node =>
    obtain ⟨⟨a, rfl, ho, hi⟩, hv, hn⟩ := h
    cases hst
    have hnext : (flat s).next (some a) = (flat s).top := congrArg addr hn
    have habs : abs { s with top := .node a.1 a.2 } = item :: abs s := by
      rw [← hi]
      exact TreiberStack.abs_push w.wf hnext
    refine ⟨.push hnext, ⟨nofun, w.clean.next, w.clean.freed⟩, fun v hv' => ?_, trivial,
      Or.inr ⟨rfl, _, rfl, ?_⟩⟩
    · rw [habs] at hv'
      rcases List.mem_cons.mp hv' with rfl | hv'
      · exact hv
      · exact w.filled v hv'
    · rw [habs]
      rfl
  | unlock =>
    cases hst
    exact lock_ok w rfl rfl rfl rfl rfl trivial rfl
  | done =>
    cases hst
    exact lock_ok w rfl rfl rfl rfl rfl trivial rfl

theorem remove_ok (w : Wf s) {l l' : RemovePc T V} (h : At W s .remove (.remove l))
    (hst : removeStep A t s l = some (s', l')) :
    StepOk W s .remove (.remove l) s' (.remove l') := by
  have hpast : ∀ {s' : LockedStack T V Λ}, (∃ s₀ ∈ W, abs s₀ = []) →
      ∃ s₀ ∈ insert s' W, abs s₀ = [] :=
    fun ⟨s₀, h0, h1⟩ => ⟨s₀, Set.mem_insert_of_mem _ h0, h1⟩
  cases l with
  | lock =>
    obtain ⟨u, -, he⟩ := Option.map_eq_some_iff.mp hst
    cases he
    exact lock_ok w rfl rfl rfl rfl rfl trivial rfl
  | loadTop =>
    cases hst
    by_cases ht : s.top = .null
    · rw [if_pos ht]
      refine lock_ok w rfl rfl rfl rfl rfl ⟨s, Set.mem_insert _ _, ?_⟩ rfl
      exact TreiberStack.abs_nil (congrArg addr ht)
    · rw [if_neg ht]
      exact lock_ok w rfl rfl rfl rfl rfl ⟨rfl, ht⟩ rfl
  | unlockEmpty =>
    cases hst
    exact lock_ok w rfl rfl rfl rfl rfl (hpast h) rfl
  | loadNext top =>
    cases hst
    exact lock_ok w rfl rfl rfl rfl rfl ⟨h.1, h.2, rfl⟩ rfl
  | setTop top next =>
    obtain ⟨rfl, hne, rfl⟩ := h
    obtain ⟨a, ha, htop, -⟩ := w.top_node hne
    cases hst
    have hfl : flat { s with top := (s.memory.mem s.top).next } =
        { flat s with top := (flat s).next (some a) } := by
      rw [ha]
      rfl
    have hact : Act (flat s) none none { flat s with top := (flat s).next (some a) } (some a)
        none := .pop htop
    have habs : abs s = (flat s).item a :: abs { s with top := (s.memory.mem s.top).next } := by
      rw [abs, TreiberStack.abs_cons w.wf htop, abs, hfl]
    have hitem : (flat s).item a ≠ 0 := w.filled _ (by rw [habs]; exact List.mem_cons_self)
    have haddr : addr s.top = some a := htop
    refine ⟨?_, ⟨w.clean.next _, w.clean.next, w.clean.freed⟩, fun v hv => w.filled v ?_,
      ⟨_, ⟨a, ha, ?_, rfl⟩, hitem⟩, Or.inr ⟨rfl, _, rfl, ?_⟩⟩
    · rw [hfl]
      simp only [owns, pushes, haddr]
      exact hact
    · rw [habs]
      exact List.mem_cons_of_mem _ hv
    · rw [hfl]
      exact (hact.wf w.wf nofun).2 a rfl
    · rw [habs, ha]
      rfl
  | unlock top =>
    cases hst
    exact lock_ok w rfl rfl rfl rfl rfl h rfl
  | loadItem top =>
    obtain ⟨v, ⟨a, rfl, ho, rfl⟩, hv⟩ := h
    cases hst
    exact lock_ok w rfl rfl rfl rfl rfl ⟨⟨_, a, rfl, ho, rfl⟩, hv⟩ rfl
  | release top val =>
    obtain ⟨⟨v, a, rfl, ho, -⟩, hv⟩ := h
    cases hst
    have hfl := flat_release (s := s) (a := a)
    refine ⟨?_, ⟨w.clean.top, w.clean.next, fun u i hu => ?_⟩, ?_, hv, Or.inl ⟨rfl, ?_⟩⟩
    · rw [hfl]
      exact .free
    · rcases List.mem_cons.mp hu with hu | hu
      · cases hu
        exact (of_decide_eq_true ho.1).1
      · exact w.clean.freed u i hu
    · rw [abs, hfl]
      exact w.filled
    · rw [abs, hfl]
      rfl
  | done val =>
    cases hst
    exact lock_ok w rfl rfl rfl rfl rfl h rfl
  | empty =>
    cases hst
    exact lock_ok w rfl rfl rfl rfl rfl (hpast h) rfl

theorem step_ok (w : Wf s) (h : At W s op l) (hst : step A t s l = some (s', l')) :
    StepOk W s op l s' l' := by
  rcases op with item | _ <;> rcases l with l | l
  · obtain ⟨⟨s₁, l₁⟩, hadd, he⟩ := Option.map_eq_some_iff.mp hst
    cases he
    exact add_ok w h hadd
  · exact h.elim
  · exact h.elim
  · obtain ⟨⟨s₁, l₁⟩, hremove, he⟩ := Option.map_eq_some_iff.mp hst
    cases he
    exact remove_ok w h hremove

/-! ### The other calls -/

/-- Who is not inside changes neither `top` nor a node that was given out. -/
theorem outside (hl : ¬ Inside l) (hst : step A t s l = some (s', l')) {x : T × ℕ}
    (hx : (flat s).given x = true) :
    s'.top = s.top ∧ s'.memory.mem (.node x.1 x.2) = s.memory.mem (.node x.1 x.2) := by
  have hlock : ∀ {u : Option Λ} (l₁ : Pc T V), u.map (fun w => ({ s with lock := w }, l₁)) =
      some (s', l') → s'.top = s.top ∧
        s'.memory.mem (.node x.1 x.2) = s.memory.mem (.node x.1 x.2) := by
    intro u l₁ h
    obtain ⟨w, -, he⟩ := Option.map_eq_some_iff.mp h
    cases he
    exact ⟨rfl, rfl⟩
  rcases l with l | l
  · cases l
    case alloc v =>
      obtain ⟨rfl, -⟩ : { s with memory := (s.memory.allocate t ⟨v, .null⟩).1 } = s' ∧ _ :=
        Prod.mk.inj (Option.some.inj hst)
      refine ⟨rfl, s.memory.mem_allocate_of_ne _ _ t fun he => ?_⟩
      obtain ⟨h1, h2⟩ := Ptr.node.inj he
      have := (of_decide_eq_true hx).1
      rw [h1, h2] at this
      exact lt_irrefl _ this
    case lock => exact hlock (.add (.loadTop _)) (by simpa [step, addStep] using hst)
    case done =>
      cases hst
      exact ⟨rfl, rfl⟩
    all_goals exact absurd trivial hl
  · cases l
    case lock => exact hlock (.remove .loadTop) (by simpa [step, removeStep] using hst)
    case loadItem | done | empty =>
      cases hst
      exact ⟨rfl, rfl⟩
    case release =>
      cases hst
      exact ⟨rfl, rfl⟩
    all_goals exact absurd trivial hl

/-- What one thread asserts, after a step of another: their nodes are apart, and
they are not both inside. -/
theorem At.keeps {W₁ : Set (LockedStack T V Λ)} (h : At W s op₁ l₁) (w : Wf s)
    (hok : StepOk W₁ s op l s' l') (hst : step A t s l = some (s', l'))
    (ho : ∀ x, owns l = some x → (flat s).Owned x) (ha : ∀ x, owns l = some x → owns l₁ ≠ some x)
    (hin : Inside l₁ → ¬ Inside l) :
    At (insert s' W) s' op₁ l₁ ∧ lin s' op₁ l₁ = lin s op₁ l₁ ∧
      ∀ x, owns l' = some x → owns l₁ ≠ some x := by
  have howned : ∀ {x}, owns l₁ = some x →
      (flat s').Owned x ∧ (flat s').mem x = (flat s).mem x ∧ owns l' ≠ some x :=
    fun hx => hok.act.owned w.wf ho (h.owned _ hx) fun hl => ha _ hl hx
  have hitem : ∀ {x}, owns l₁ = some x → (flat s').item x = (flat s).item x :=
    fun hx => congrArg StackqueueNodePadded.item (howned hx).2.1
  have hhas : ∀ {x v}, Has s x v → addr x = owns l₁ → Has s' x v := by
    rintro x v ⟨a, rfl, h1, h2⟩ hx
    exact ⟨a, rfl, (howned hx.symm).1, (hitem hx.symm).trans h2⟩
  have hpast : (∃ s₀ ∈ W, abs s₀ = []) → ∃ s₀ ∈ insert s' W, abs s₀ = [] :=
    fun ⟨s₀, h0, h1⟩ => ⟨s₀, Set.mem_insert_of_mem _ h0, h1⟩
  refine ⟨?_, ?_, fun x hx hy => (howned hy).2.2 hx⟩
  · rcases op₁ with item | _ <;> rcases l₁ with l₁ | l₁
    · cases l₁ with
      | alloc v => exact h
      | lock node => exact ⟨hhas h.1 rfl, h.2⟩
      | loadTop node => exact ⟨hhas h.1 rfl, h.2⟩
      | setNext node top =>
        obtain ⟨⟨a, rfl, h1, h2⟩, h3, h4⟩ := h
        exact ⟨hhas ⟨a, rfl, h1, h2⟩ rfl, h3, h4.trans (outside (hin trivial) hst h1.1).1.symm⟩
      | setTop node =>
        obtain ⟨⟨a, rfl, h1, h2⟩, h3, h4⟩ := h
        obtain ⟨h5, h6⟩ := outside (hin trivial) hst h1.1
        refine ⟨hhas ⟨a, rfl, h1, h2⟩ rfl, h3, ?_⟩
        rw [h6, h5]
        exact h4
      | unlock => trivial
      | done => trivial
    · exact h.elim
    · exact h.elim
    · cases l₁ with
      | lock => trivial
      | loadTop => trivial
      | unlockEmpty => exact hpast h
      | loadNext top =>
        obtain ⟨rfl, h1⟩ := h
        obtain ⟨a, -, -, hg⟩ := w.top_node h1
        exact ⟨(outside (hin trivial) hst hg).1.symm, h1⟩
      | setTop top next =>
        obtain ⟨rfl, h1, h2⟩ := h
        obtain ⟨a, ha, -, hg⟩ := w.top_node h1
        obtain ⟨h3, h4⟩ := outside (hin trivial) hst hg
        refine ⟨h3.symm, h1, ?_⟩
        rw [← h2, ha, h4]
      | unlock top =>
        obtain ⟨v, h1, h2⟩ := h
        exact ⟨v, hhas h1 rfl, h2⟩
      | loadItem top =>
        obtain ⟨v, h1, h2⟩ := h
        exact ⟨v, hhas h1 rfl, h2⟩
      | release top val =>
        obtain ⟨⟨v, h1⟩, h2⟩ := h
        exact ⟨⟨v, hhas h1 rfl⟩, h2⟩
      | done val => exact h
      | empty => exact hpast h
  · rcases op₁ with item | _ <;> rcases l₁ with l₁ | l₁
    · cases l₁ <;> rfl
    · exact h.elim
    · exact h.elim
    · cases l₁
      case unlock top | loadItem top =>
        obtain ⟨v, ⟨a, rfl, -, -⟩, -⟩ := h
        exact congrArg (fun v => some (Answer.val v)) (hitem rfl)
      all_goals rfl

/-! ### Runs -/

section run

variable {lock : Λ} {Free Held : Λ → Prop}

theorem Wf.initial : Wf (empty lock : LockedStack T V Λ) := by
  have hn : (flat (empty lock : LockedStack T V Λ)).nodes = [] := nodes_nil
  refine ⟨⟨fun _ => rfl, fun _ _ => rfl, nofun⟩, ⟨by rw [hn]; rfl, fun a h => ?_⟩, fun v hv => ?_⟩
  · rw [hn] at h
    cases h
  · rw [abs, TreiberStack.abs_nil rfl] at hv
    cases hv

theorem start_at {W : Set (LockedStack T V Λ)} (hp : SqClient op) : At W s op (start op) := by
  cases op with
  | add item => exact ⟨rfl, hp item rfl⟩
  | remove => trivial

variable (hA : A.Lawful Free Held) (h0 : Free lock)

include hA h0

/-- No two calls are inside. -/
theorem inside_apart {es} {c : Config T (SqCall V) (LockedStack T V Λ) (Pc T V)}
    (hr : (program A lock).Run es c) {u : T} (hu : u ≠ t) (ht : c.threads t = some (op, l))
    (hcu : c.threads u = some (op₁, l₁)) : Inside l₁ → ¬ Inside l := by
  intro h1 h2
  exact hu ((lockUse A lock SqClient).unique hA h0 hr ⟨op₁, l₁, hcu, h1⟩ ⟨op, l, ht, h2⟩)

/-- The proof outline. -/
def outline : Outline (program (V := V) A lock) (fun _ _ _ _ => True) fun _ _ => False where
  glob _ s := Wf s
  loc _ _ W s op l := At W s op l
  pair f g := ∀ x, owns f.2 = some x → owns g.2 ≠ some x
  pair_symm h x hx hy := h x hy hx
  init := .initial
  frame hg _ := hg
  call t _ _ hp := start_at hp
  call_pair := by
    intro op g
    cases op <;> exact nofun
  tau := by
    intro es c t op l i s' l' hr ht hres hst _ w hat
    have h := step_ok w hat hst
    refine ⟨⟨h.clean, (h.act.wf w.wf hat.owned).1, h.filled⟩, ?_, fun u op₁ l₁ hu hcu hl₁ ha => ?_⟩
    · rw [extend_of_not id]
      exact h.next
    · obtain ⟨h1, -, h3⟩ := hl₁.keeps w h hst hat.owned ha (inside_apart hA h0 hr hu ht hcu)
      exact ⟨h1, h3⟩

theorem linearizable [Fintype T] : Linearizable (stackObject V) (program A lock) abs := by
  refine Concur.linearizable ((outline hA h0).points lin (TreiberStack.abs_nil rfl) (fun s op => ?_)
    ?_ ?_)
  · cases op <;> rfl
  · intro es c t op l i s' l' hr hH ht hres hst _
    have hat : At (since t es) c.shared op l := hH.loc t op l ht
    have h := step_ok hH.glob hat hst
    refine ⟨h.point, fun u op₁ l₁ hu hcu => ?_⟩
    have hl₁ : At (since u es) c.shared op₁ l₁ := hH.loc u op₁ l₁ hcu
    exact (hl₁.keeps hH.glob h hst hat.owned (hH.pair t u _ _ (Ne.symm hu) ht hcu)
      (inside_apart hA h0 hr hu ht hcu)).2.1
  · intro es c t op l r hr hH ht hres
    have hat : At (since t es) c.shared op l := hH.loc t op l ht
    rcases op with item | _ <;> rcases l with l | l
    · cases l <;> cases hres
      exact Or.inl rfl
    · exact hat.elim
    · exact hat.elim
    · cases l <;> cases hres
      · exact Or.inl rfl
      · obtain ⟨s₀, h1, h2⟩ := hat
        exact Or.inr ⟨rfl, s₀, h1, by rw [h2]; rfl⟩

end run

/-! ### `count` -/

theorem countFrom_eq {s : LockedStack T V Λ} (hc : Clean s) {x : Ptr T} {l : List (Option (T × ℕ))}
    (hx : addr x = none → x = .null) (hp : Path (flat s).next none (addr x) l) {fuel : ℕ}
    (hf : l.length < fuel) : countFrom s fuel x = some l.length := by
  induction l generalizing x fuel with
  | nil =>
    cases fuel with
    | zero => cases hf
    | succ fuel =>
      obtain rfl := hx hp
      rfl
  | cons z l ih =>
    cases fuel with
    | zero => cases hf
    | succ fuel =>
      obtain ⟨h1, h2, h3⟩ := hp
      obtain ⟨a, rfl⟩ := Option.ne_none_iff_exists'.mp h2
      obtain rfl := addr_eq_some.mp h1
      have hrec := ih (hc.next _) h3 (Nat.lt_of_succ_lt_succ hf)
      rw [countFrom, if_neg nofun, hrec]
      rfl

/-- What the allocator sees of a stack. -/
def nodeUse : NodeUse (LockedStack T V Λ) (Ptr T) where
  used s x := ∃ a : T × ℕ, x = .node a.1 a.2 ∧ a.2 < s.memory.count a.1
  lnk s x := ∃ a : T × ℕ, x = .node a.1 a.2 ∧ some a ∈ (flat s).nodes
  freed s := s.memory.freed

/-- The node that a call has taken off and is going to free. -/
def debt : Pc T V → List (Ptr T)
  | .remove (.unlock top) => [top]
  | .remove (.loadItem top) => [top]
  | .remove (.release top _) => [top]
  | _ => []

/-- The node that a call has allocated and not linked. -/
def hand : Pc T V → Option (Ptr T)
  | .add (.lock node) => some node
  | .add (.loadTop node) => some node
  | .add (.setNext node _) => some node
  | .add (.setTop node) => some node
  | _ => none

/-- The entry of a step, which allocates at most the node in hand after it. -/
def Books (s : LockedStack T V Λ) (ys : List (Ptr T)) (h : Option (Ptr T))
    (s' : LockedStack T V Λ) (ys' : List (Ptr T)) (h' : Option (Ptr T)) : Prop :=
  Ledger.Entry (nodeUse.used s) (nodeUse.lnk s) s.memory.freed ys h (nodeUse.used s')
      (nodeUse.lnk s') s'.memory.freed ys' h' ∧
    ∀ x, nodeUse.used s' x → nodeUse.used s x ∨ h' = some x

section books

variable {ys : List (Ptr T)} {h : Option (Ptr T)}

theorem used_congr (hc : s'.memory.count = s.memory.count) (x : Ptr T) :
    nodeUse.used s' x ↔ nodeUse.used s x := by
  simp only [nodeUse, hc]

theorem lnk_congr (hn : (flat s').nodes = (flat s).nodes) (x : Ptr T) :
    nodeUse.lnk s' x ↔ nodeUse.lnk s x := by
  simp only [nodeUse, hn]

/-- A step that changes no link. -/
theorem Books.same (hn : (flat s').nodes = (flat s).nodes)
    (hc : s'.memory.count = s.memory.count) (hf : s'.memory.freed = s.memory.freed) :
    Books s ys h s' ys h := by
  refine ⟨?_, fun x hx => Or.inl ((used_congr hc x).mp hx)⟩
  rw [hf]
  exact .none (fun x hx => (used_congr hc x).mpr hx) (lnk_congr hn)

theorem Books.allocate (w : Wf s) (t : T) (v : V) :
    Books s ys none { s with memory := (s.memory.allocate t ⟨v, .null⟩).1 } ys
      (some (.node t (s.memory.count t))) := by
  have hg : (flat s).given (t, s.memory.count t) = false := by simp [flat]
  have hn : (flat { s with memory := (s.memory.allocate t ⟨v, .null⟩).1 }).nodes =
      (flat s).nodes := by
    rw [flat_allocate w.clean]
    exact TreiberStack.nodes_congr w.wf rfl fun b => TreiberStack.mem_allocate w.wf hg
  refine ⟨.take _ ?_ ⟨(t, _), rfl, s.memory.count_allocate_self _ t⟩ ?_ (lnk_congr hn), ?_⟩
  · rintro ⟨a, he, ha⟩
    obtain ⟨h1, h2⟩ := Ptr.node.inj he
    rw [← h1, ← h2] at ha
    exact lt_irrefl _ ha
  · rintro x ⟨a, rfl, ha⟩
    exact ⟨a, rfl, ha.trans_le (s.memory.count_le_allocate _ t a.1)⟩
  · rintro x ⟨a, rfl, ha⟩
    by_cases hu : a.1 = t
    · have ha : a.2 < s.memory.count a.1 + 1 := by simpa [Memory.allocate, hu] using ha
      rcases Nat.lt_succ_iff_lt_or_eq.mp ha with ha | ha
      · exact Or.inl ⟨a, rfl, ha⟩
      · rw [ha, hu]
        exact Or.inr rfl
    · exact Or.inl ⟨a, rfl, by simpa [Memory.allocate, hu] using ha⟩

theorem books (w : Wf s) (hat : At W s op l) (hst : step A t s l = some (s', l')) :
    Books s (debt l) (hand l) s' (debt l') (hand l') := by
  have hlock : ∀ {u : Option Λ} (l₁ : Pc T V), debt l = debt l₁ → hand l = hand l₁ →
      u.map (fun w => ({ s with lock := w }, l₁)) = some (s', l') →
      Books s (debt l) (hand l) s' (debt l') (hand l') := by
    intro u l₁ h1 h2 h3
    obtain ⟨v, -, he⟩ := Option.map_eq_some_iff.mp h3
    cases he
    rw [h1, h2]
    exact .same rfl rfl rfl
  rcases op with item | _ <;> rcases l with l | l
  · cases l with
    | alloc v =>
      obtain ⟨rfl, rfl⟩ : { s with memory := (s.memory.allocate t ⟨v, .null⟩).1 } = s' ∧
          Pc.add (.lock (s.memory.allocate t ⟨v, .null⟩).2) = l' :=
        Prod.mk.inj (Option.some.inj hst)
      exact .allocate w t v
    | lock node =>
      exact hlock (.add (.loadTop node)) rfl rfl (by simpa [step, addStep] using hst)
    | setNext node top =>
      obtain ⟨⟨a, rfl, ho, -⟩, -, rfl⟩ := hat
      cases hst
      refine .same ?_ rfl rfl
      rw [flat_setNext]
      exact TreiberStack.nodes_congr w.wf rfl fun b => TreiberStack.mem_setNext ho
    | setTop node =>
      obtain ⟨⟨a, rfl, -, -⟩, -, hn⟩ := hat
      cases hst
      have hnodes : (flat { s with top := .node a.1 a.2 }).nodes = some a :: (flat s).nodes :=
        TreiberStack.nodes_push w.wf (congrArg addr hn)
      have hlnk : ∀ x, nodeUse.lnk { s with top := .node a.1 a.2 } x ↔
          nodeUse.lnk s x ∨ x = .node a.1 a.2 := by
        intro x
        simp only [nodeUse, hnodes, List.mem_cons]
        grind
      exact ⟨.link _ (fun x hx => hx) hlnk, fun x hx => Or.inl hx⟩
    | _ =>
      cases hst
      exact .same rfl rfl rfl
  · exact hat.elim
  · exact hat.elim
  · cases l with
    | lock =>
      exact hlock (.remove .loadTop) rfl rfl (by simpa [step, removeStep] using hst)
    | loadTop =>
      cases hst
      split_ifs <;> exact .same rfl rfl rfl
    | setTop top next =>
      obtain ⟨rfl, hne, rfl⟩ := hat
      obtain ⟨a, ha, htop, -⟩ := w.top_node hne
      cases hst
      have hnodes := TreiberStack.nodes_cons w.wf htop
      have hoff := TreiberStack.not_mem_pop w.wf htop
      have hfl : flat { s with top := (s.memory.mem s.top).next } =
          { flat s with top := (flat s).next (some a) } := by
        rw [ha]
        rfl
      refine ⟨.unlink [s.top] (fun x hx => hx) (List.nodup_singleton _) ?_ fun x => ?_,
        fun x hx => Or.inl hx⟩
      · intro x hx
        rw [List.mem_singleton.mp hx]
        exact ⟨a, ha, TreiberStack.mem_nodes_of_top w.wf htop⟩
      · simp only [nodeUse, hfl, hnodes, List.mem_cons, List.not_mem_nil, or_false]
        grind
    | release top val =>
      obtain ⟨⟨v, a, rfl, -, -⟩, -⟩ := hat
      cases hst
      have hn : (flat { s with memory := s.memory.ssmemFree (.node a.1 a.2) }).nodes =
          (flat s).nodes := by
        rw [flat_release]
        rfl
      exact ⟨.free _ (fun x hx => hx) (lnk_congr hn), fun x hx => Or.inl hx⟩
    | _ =>
      cases hst
      exact .same rfl rfl rfl

end books

section accounts

variable {lock : Λ} {Free Held : Λ → Prop}

def accounts (hA : A.Lawful Free Held) (h0 : Free lock) :
    Accounts (program (V := V) A lock) (fun _ _ _ _ => True) nodeUse where
  debt := debt
  hand := hand
  start op := by cases op <;> exact ⟨rfl, rfl⟩
  ret {l r} h := by rcases l with l | l <;> cases l <;> cases h <;> exact ⟨rfl, rfl⟩
  freed_init := rfl
  used_init := by
    rintro x ⟨a, -, ha⟩
    exact absurd ha (Nat.not_lt_zero _)
  met_used {es c x} hr hx := by
    obtain ⟨s₀, hs, a, rfl, ha⟩ := hx
    obtain ⟨es₀, c₀, hr₀, rfl⟩ := hr.of_mem_seen hs
    have hg := ((outline hA h0).holds hr₀).glob.wf.given a ha
    refine hr.kept (Q := fun s => nodeUse.used s (.node a.1 a.2)) (fun hr ht _ hst hx => ?_)
      ⟨_, hs, a, rfl, (of_decide_eq_true hg).1⟩
    exact (books ((outline hA h0).holds hr).glob (((outline hA h0).holds hr).loc _ _ _ ht)
      hst).1.used_mono _ hx
  step {es c t op l i s' l'} hr ht hres hst _ :=
    books ((outline hA h0).holds hr).glob (((outline hA h0).holds hr).loc t op l ht) hst

end accounts

end StackLock

end Ascylib
