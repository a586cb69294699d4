/-
# The stack of Treiber

`src/algorithms/stack_treiber.h`, with nodes whose memory is given out again
after `ssmem_free`, but not while a call still has the address in a variable
(`NoReuse`). A `remove` installs a `next` that it read earlier. Its `top` cannot
have left the stack and come back in between: only an `add` puts a node on the
stack, and it would have to get that address first. So when the CAS succeeds
`top` is still where it was, with the same `next` (`Watched`).

Key definitions: `program`, `NoReuse`, `At`, `Apart`.
Key theorem: `stack_treiber_linearizable`.
-/
import Ascylib.Concur.Path
import Ascylib.StackQueue

set_option linter.unusedSectionVars false

namespace Ascylib

open Concur

/-- `stackqueue_node_padded.h`; `none` is `NULL`. -/
structure StackqueueNodePadded (A V : Type*) where
  item : V
  next : Option A

/-- `struct stack` with the memory; `given` are the addresses that were given
out and not freed since. -/
structure TreiberStack (A V : Type*) where
  mem : A → StackqueueNodePadded A V
  top : Option A
  given : A → Bool

namespace TreiberStack

variable {A V : Type*} [DecidableEq A]

/-- `x->next`. -/
def next (s : TreiberStack A V) : Option A → Option A
  | none => none
  | some a => (s.mem a).next

/-- `x->item`. -/
def item (s : TreiberStack A V) (a : A) : V := (s.mem a).item

/-- `allocate_stackqueue_node_padded(item, NULL)`, which got the address `a`. -/
def allocate (s : TreiberStack A V) (a : A) (item : V) : TreiberStack A V :=
  { s with mem := Function.update s.mem a ⟨item, none⟩, given := Function.update s.given a true }

/-- `a->next = q`. -/
def setNext (s : TreiberStack A V) (a : A) (q : Option A) : TreiberStack A V :=
  { s with mem := Function.update s.mem a { s.mem a with next := q } }

/-- `CAS_PTR(&set->top, old, new) == old`. -/
def casTop (s : TreiberStack A V) (old new : Option A) : Bool × TreiberStack A V :=
  if s.top = old then (true, { s with top := new }) else (false, s)

/-- `release_stackqueue_node_padded(a)`. -/
def release (s : TreiberStack A V) (a : A) : TreiberStack A V :=
  { s with given := Function.update s.given a false }

/-- The constructor, on any memory. -/
def empty (mem : A → StackqueueNodePadded A V) : TreiberStack A V := ⟨mem, none, fun _ => false⟩

/-! ### The list -/

/-- The nodes on the stack, newest first. -/
noncomputable abbrev nodes (s : TreiberStack A V) : List (Option A) := Concur.nodes s.next none s.top

noncomputable def abs (s : TreiberStack A V) : List V := s.nodes.filterMap fun p => p.map s.item

/-- A well-formed stack: its nodes end in `NULL`, and are given out. -/
structure Wf (s : TreiberStack A V) : Prop where
  path : Path s.next none s.top s.nodes
  given : ∀ a, some a ∈ s.nodes → s.given a = true

/-- A node in the hands of one thread. -/
def Owned (s : TreiberStack A V) (a : A) : Prop := s.given a = true ∧ some a ∉ s.nodes

/-- The writes of a thread that owns the node `o`, which it is going to push if
it is `p`. -/
inductive Act (s : TreiberStack A V) : Option A → Option A → TreiberStack A V → Option A → Option A → Prop
  | skip {o p} : Act s o p s o p
  | alloc {a item} : s.given a = false → Act s none none (s.allocate a item) (some a) (some a)
  | setNext {a q} : Act s (some a) (some a) (s.setNext a q) (some a) (some a)
  | push {a} : s.next (some a) = s.top → Act s (some a) (some a) { s with top := some a } none none
  | pop {a} : s.top = some a → Act s none none { s with top := s.next (some a) } (some a) none
  | free {a} : Act s (some a) none (s.release a) none none

section

variable {s s' : TreiberStack A V} {a x y : A} {o p o' p' : Option A}

theorem mem_nodes_of_top (w : Wf s) (h : s.top = some a) : some a ∈ s.nodes := by
  have hp := w.path
  rcases hl : s.nodes with _ | ⟨z, l⟩
  · rw [hl, h] at hp
    cases hp
  · rw [hl, h] at hp
    rw [hp.1]
    exact List.mem_cons_self

theorem nodes_cons (w : Wf s) (h : s.top = some a) :
    s.nodes = some a :: ({ s with top := s.next (some a) } : TreiberStack A V).nodes := by
  rw [nodes, h]
  exact Concur.nodes_cons (mem_nodes_of_top w h)

theorem abs_cons (w : Wf s) (h : s.top = some a) :
    s.abs = s.item a :: ({ s with top := s.next (some a) } : TreiberStack A V).abs := by
  rw [abs, nodes_cons w h]
  rfl

theorem abs_nil (h : s.top = none) : s.abs = [] := by
  rw [abs, nodes, h, nodes_nil]
  rfl

theorem wf_pop (w : Wf s) (h : s.top = some a) : Wf { s with top := s.next (some a) } := by
  have hp := w.path
  rw [nodes_cons w h] at hp
  refine ⟨hp.2.2, fun b hb => w.given b ?_⟩
  rw [nodes_cons w h]
  exact List.mem_cons_of_mem _ hb

theorem not_mem_pop (w : Wf s) (h : s.top = some a) :
    some a ∉ ({ s with top := s.next (some a) } : TreiberStack A V).nodes := by
  have hnd := w.path.nodup
  rw [nodes_cons w h] at hnd
  exact (List.nodup_cons.mp hnd).1

theorem path_push (w : Wf s) (h : s.next (some a) = s.top) :
    Path s.next none (some a) (some a :: s.nodes) :=
  ⟨rfl, nofun, by rw [h]; exact w.path⟩

theorem nodes_push (w : Wf s) (h : s.next (some a) = s.top) :
    ({ s with top := some a } : TreiberStack A V).nodes = some a :: s.nodes :=
  (path_push w h).nodes_eq

theorem abs_push (w : Wf s) (h : s.next (some a) = s.top) :
    ({ s with top := some a } : TreiberStack A V).abs = s.item a :: s.abs := by
  rw [abs, nodes_push w h]
  rfl

/-- Memory off the stack changed. -/
theorem nodes_congr (w : Wf s) (ht : s'.top = s.top) (h : ∀ b, some b ∈ s.nodes → s'.mem b = s.mem b) :
    s'.nodes = s.nodes := by
  rw [nodes, ht]
  refine Concur.nodes_congr w.path fun z hz => ?_
  cases z with
  | none => rfl
  | some b => exact congrArg StackqueueNodePadded.next (h b hz)

theorem abs_congr (w : Wf s) (ht : s'.top = s.top) (h : ∀ b, some b ∈ s.nodes → s'.mem b = s.mem b) :
    s'.abs = s.abs := by
  rw [abs, nodes_congr w ht h, abs]
  refine List.filterMap_congr fun z hz => ?_
  cases z with
  | none => rfl
  | some b => exact congrArg (fun n => some n.item) (h b hz)

theorem mem_allocate (w : Wf s) (hg : s.given a = false) {v : V} {b : A} (hb : some b ∈ s.nodes) :
    (s.allocate a v).mem b = s.mem b := by
  refine Function.update_of_ne ?_ _ _
  rintro rfl
  rw [w.given b hb] at hg
  cases hg

theorem mem_setNext (ho : s.Owned a) {q : Option A} {b : A} (hb : some b ∈ s.nodes) :
    (s.setNext a q).mem b = s.mem b := by
  refine Function.update_of_ne ?_ _ _
  rintro rfl
  exact ho.2 hb

end

namespace Act

variable {s s' : TreiberStack A V} {y : A} {o p o' p' : Option A} (h : Act s o p s' o' p') (w : Wf s)
  (ho : ∀ x, o = some x → s.Owned x)

include h w ho

/-- **Every write keeps the stack well formed**, and what the thread owns
afterwards is off it. -/
theorem wf : Wf s' ∧ ∀ x, o' = some x → s'.Owned x := by
  cases h with
  | skip => exact ⟨w, ho⟩
  | @alloc a v hg =>
    have hn : (s.allocate a v).nodes = s.nodes := nodes_congr w rfl fun b => mem_allocate w hg
    have hp : Path (s.allocate a v).next none s.top s.nodes := by
      refine w.path.congr fun z hz => ?_
      cases z with
      | none => rfl
      | some b => exact congrArg StackqueueNodePadded.next (mem_allocate w hg hz)
    refine ⟨⟨by rw [hn]; exact hp, fun b hb => ?_⟩, ?_⟩
    · rw [hn] at hb
      by_cases hba : b = a
      · subst hba
        exact Function.update_self ..
      · exact (Function.update_of_ne hba _ _).trans (w.given b hb)
    · rintro x ⟨⟩
      refine ⟨Function.update_self .., fun hx => ?_⟩
      rw [hn] at hx
      rw [w.given a hx] at hg
      cases hg
  | @setNext a q =>
    have hoa := ho a rfl
    have hn : (s.setNext a q).nodes = s.nodes := nodes_congr w rfl fun b => mem_setNext hoa
    have hp : Path (s.setNext a q).next none s.top s.nodes := by
      refine w.path.congr fun z hz => ?_
      cases z with
      | none => rfl
      | some b => exact congrArg StackqueueNodePadded.next (mem_setNext hoa hz)
    refine ⟨⟨by rw [hn]; exact hp, fun b hb => w.given b (hn ▸ hb)⟩, ?_⟩
    rintro x ⟨⟩
    exact ⟨hoa.1, fun hx => hoa.2 (hn ▸ hx)⟩
  | @push a hn =>
    have hcons := nodes_push w hn
    refine ⟨⟨?_, fun b hb => ?_⟩, nofun⟩
    · rw [hcons]
      exact path_push w hn
    · rw [hcons] at hb
      rcases List.mem_cons.mp hb with hb | hb
      · cases hb
        exact (ho a rfl).1
      · exact w.given b hb
  | @pop a ht =>
    refine ⟨wf_pop w ht, ?_⟩
    rintro x ⟨⟩
    exact ⟨w.given a (mem_nodes_of_top w ht), not_mem_pop w ht⟩
  | @free a =>
    refine ⟨⟨w.path, fun b hb => (Function.update_of_ne ?_ _ _).trans (w.given b hb)⟩, nofun⟩
    rintro rfl
    exact (ho b rfl).2 hb

/-- A node that another thread owns stays its own, as it is. -/
theorem owned (hy : s.Owned y) (hne : o ≠ some y) :
    s'.Owned y ∧ s'.mem y = s.mem y ∧ o' ≠ some y := by
  cases h with
  | skip => exact ⟨hy, rfl, hne⟩
  | @alloc a v hg =>
    have hya : y ≠ a := by
      rintro rfl
      rw [hy.1] at hg
      cases hg
    have hn : (s.allocate a v).nodes = s.nodes := nodes_congr w rfl fun b => mem_allocate w hg
    refine ⟨⟨(Function.update_of_ne hya _ _).trans hy.1, fun h => hy.2 (hn ▸ h)⟩,
      Function.update_of_ne hya _ _, fun h => hya (Option.some.inj h).symm⟩
  | @setNext a q =>
    have hya : y ≠ a := fun h => hne (h ▸ rfl)
    have hn : (s.setNext a q).nodes = s.nodes := nodes_congr w rfl fun b => mem_setNext (ho a rfl)
    exact ⟨⟨hy.1, fun h => hy.2 (hn ▸ h)⟩, Function.update_of_ne hya _ _, hne⟩
  | @push a hn =>
    refine ⟨⟨hy.1, fun h => ?_⟩, rfl, nofun⟩
    rw [nodes_push w hn] at h
    rcases List.mem_cons.mp h with h | h
    · exact hne h.symm
    · exact hy.2 h
  | @pop a ht =>
    have hcons := nodes_cons w ht
    refine ⟨⟨hy.1, fun h => hy.2 ?_⟩, rfl, fun h => hy.2 ?_⟩
    · rw [hcons]
      exact List.mem_cons_of_mem _ h
    · rw [← h]
      exact mem_nodes_of_top w ht
  | @free a =>
    have hya : y ≠ a := fun h => hne (h ▸ rfl)
    exact ⟨⟨(Function.update_of_ne hya _ _).trans hy.1, hy.2⟩, rfl, nofun⟩

/-- A node that nobody pushes does not come onto the stack, and if it stays
there its `next` does too. -/
theorem watched (hne : p ≠ some y) (hnew : ¬ (s.given y = false ∧ s'.given y = true)) :
    (some y ∈ s'.nodes → some y ∈ s.nodes ∧ s'.next (some y) = s.next (some y)) ∧ p' ≠ some y := by
  cases h with
  | skip => exact ⟨fun h => ⟨h, rfl⟩, hne⟩
  | @alloc a v hg =>
    have hya : y ≠ a := by
      rintro rfl
      exact hnew ⟨hg, Function.update_self ..⟩
    have hn : (s.allocate a v).nodes = s.nodes := nodes_congr w rfl fun b => mem_allocate w hg
    refine ⟨fun h => ⟨hn ▸ h, ?_⟩, fun h => hya (Option.some.inj h).symm⟩
    exact congrArg StackqueueNodePadded.next (Function.update_of_ne hya _ _)
  | @setNext a q =>
    have hya : y ≠ a := fun h => hne (h ▸ rfl)
    have hn : (s.setNext a q).nodes = s.nodes := nodes_congr w rfl fun b => mem_setNext (ho a rfl)
    refine ⟨fun h => ⟨hn ▸ h, ?_⟩, hne⟩
    exact congrArg StackqueueNodePadded.next (Function.update_of_ne hya _ _)
  | @push a hn =>
    refine ⟨fun h => ⟨?_, rfl⟩, nofun⟩
    rw [nodes_push w hn] at h
    rcases List.mem_cons.mp h with h | h
    · exact absurd h.symm hne
    · exact h
  | @pop a ht =>
    refine ⟨fun h => ⟨?_, rfl⟩, nofun⟩
    rw [nodes_cons w ht]
    exact List.mem_cons_of_mem _ h
  | free => exact ⟨fun h => ⟨h, rfl⟩, nofun⟩

end Act

end TreiberStack

namespace StackTreiber

open TreiberStack

variable {T A V : Type*} [DecidableEq T] [DecidableEq A]

/-- Where a call is, with the local variables that are live there. -/
inductive Pc (A V : Type*) where
  /-- `add`: `node = allocate_stackqueue_node_padded(item, NULL)` -/
  | alloc (item : V)
  /-- `top = set->top` -/
  | addTop (node : A)
  /-- `node->next = top` -/
  | setNext (node : A) (top : Option A)
  /-- `CAS_PTR(&set->top, top, node) == top` -/
  | push (node : A) (top : Option A)
  /-- `return 1` -/
  | added
  /-- `remove`: `top = set->top`, and `NULL == top` -/
  | removeTop
  /-- `top->next` in the argument of the CAS -/
  | loadNext (top : A)
  /-- `CAS_PTR(&set->top, top, next) == top`, where `next` is what was read -/
  | pop (top : A) (next : Option A)
  /-- `val = top->item` -/
  | loadItem (top : A)
  /-- `release_stackqueue_node_padded(top)` -/
  | release (top : A) (val : V)
  /-- `return val` -/
  | done (val : V)
  /-- `return 0` -/
  | empty

def start : SqCall V → Pc A V
  | .add item => .alloc item
  | .remove => .removeTop

/-- The next access to shared memory, and what follows from it; `a` is the
address that an allocation gets. -/
def step (a : A) (s : TreiberStack A V) : Pc A V → Option (TreiberStack A V × Pc A V)
  | .alloc item => if s.given a then none else some (s.allocate a item, .addTop a)
  | .addTop node => some (s, .setNext node s.top)
  | .setNext node top => some (s.setNext node top, .push node top)
  | .push node top =>
    match s.casTop top (some node) with
    | (true, s') => some (s', .added)
    | (false, s') => some (s', .addTop node)
  | .added => some (s, .added)
  | .removeTop =>
    match s.top with
    | none => some (s, .empty)
    | some top => some (s, .loadNext top)
  | .loadNext top => some (s, .pop top (s.next (some top)))
  | .pop top next =>
    match s.casTop (some top) next with
    | (true, s') => some (s', .loadItem top)
    | (false, s') => some (s', .removeTop)
  | .loadItem top => some (s, .release top (s.item top))
  | .release top val => some (s.release top, .done val)
  | .done val => some (s, .done val)
  | .empty => some (s, .empty)

def result [Zero V] : Pc A V → Option (Answer V)
  | .added => some (.flag true)
  | .done val => some (.val val)
  | .empty => some (.val 0)
  | _ => none

/-- The stack on any memory, for clients that keep to the interface. -/
def program (T : Type*) [Zero V] (mem : A → StackqueueNodePadded A V) :
    Program T (SqCall V) (Answer V) (TreiberStack A V) (Pc A V) A where
  init := TreiberStack.empty mem
  pre := SqClient
  start := start
  step a _ s _ l := step a s l
  result := result

/-- The addresses in the local variables of a call. -/
def Refers : Pc A V → A → Prop
  | .addTop node, x => x = node
  | .setNext node top, x => x = node ∨ some x = top
  | .push node top, x => x = node ∨ some x = top
  | .loadNext top, x => x = top
  | .pop top next, x => x = top ∨ some x = next
  | .loadItem top, x => x = top
  | .release top _, x => x = top
  | _, _ => False

/-- No address is given out while a call has it in a variable. -/
def NoReuse (_ : Trace T (SqCall V) (Answer V) (TreiberStack A V) (Pc A V))
    (c : Config T (SqCall V) (TreiberStack A V) (Pc A V)) (_ : Event T (SqCall V) (Answer V))
    (c' : Config T (SqCall V) (TreiberStack A V) (Pc A V)) : Prop :=
  ∀ x, c.shared.given x = false → c'.shared.given x = true →
    ∀ u op l, c.threads u = some (op, l) → ¬ Refers l x

/-! ### The assertions -/

variable [Zero V]

/-- The node that a call owns. -/
def owns : Pc A V → Option A
  | .addTop node | .setNext node _ | .push node _ => some node
  | .loadItem top | .release top _ => some top
  | _ => none

/-- The node that a call is going to push. -/
def pushes : Pc A V → Option A
  | .addTop node | .setNext node _ | .push node _ => some node
  | _ => none

/-- The node that a call is going to pop. -/
def watches : Pc A V → Option A
  | .loadNext top | .pop top _ => some top
  | _ => none

/-- What two calls have apart: the nodes that they own, and what one pushes and
the other pops. -/
structure Apart (f g : SqCall V × Pc A V) : Prop where
  owns : ∀ x, owns f.2 = some x → owns g.2 ≠ some x
  left : ∀ x, pushes f.2 = some x → watches g.2 ≠ some x
  right : ∀ x, pushes g.2 = some x → watches f.2 ≠ some x

/-- The node is still where it was if it is on the stack. -/
def Watched (s : TreiberStack A V) (top : A) (next : Option A) : Prop :=
  some top ∈ s.nodes → s.next (some top) = next

/-- What holds at each local state of a call that has seen the stacks `W`. -/
def At (W : Set (TreiberStack A V)) (s : TreiberStack A V) : SqCall V → Pc A V → Prop
  | .add item, .alloc v => v = item ∧ item ≠ 0
  | .add item, .addTop node => item ≠ 0 ∧ s.Owned node ∧ s.item node = item
  | .add item, .setNext node _ => item ≠ 0 ∧ s.Owned node ∧ s.item node = item
  | .add item, .push node top => item ≠ 0 ∧ s.Owned node ∧ s.item node = item ∧
      s.next (some node) = top
  | .add _, .added => True
  | .remove, .removeTop => True
  | .remove, .loadNext _ => True
  | .remove, .pop top next => Watched s top next
  | .remove, .loadItem top => s.Owned top ∧ s.item top ≠ 0
  | .remove, .release top val => s.Owned top ∧ val ≠ 0
  | .remove, .done val => val ≠ 0
  | .remove, .empty => ∃ s₀ ∈ W, s₀.abs = []
  | _, _ => False

/-- The result of a call that has taken effect. -/
def lin (s : TreiberStack A V) (_ : SqCall V) : Pc A V → Option (Answer V)
  | .added => some (.flag true)
  | .loadItem top => some (.val (s.item top))
  | .release _ val => some (.val val)
  | .done val => some (.val val)
  | _ => none

variable {W : Set (TreiberStack A V)} {s s' : TreiberStack A V} {op op₁ : SqCall V} {l l' l₁ : Pc A V}

theorem At.owned (h : At W s op l) (x : A) (hx : owns l = some x) : s.Owned x := by
  cases op <;> cases l <;> first | exact h.elim | cases hx
  all_goals first | exact h.2.1 | exact h.1

/-- A step of the stack. -/
structure StepOk (W : Set (TreiberStack A V)) (s : TreiberStack A V) (op : SqCall V) (l : Pc A V)
    (s' : TreiberStack A V) (l' : Pc A V) : Prop where
  act : Act s (owns l) (pushes l) s' (owns l') (pushes l')
  filled : ∀ v ∈ s'.abs, v ≠ 0
  next : At (insert s' W) s' op l'
  watches : ∀ x, watches l' = some x → watches l = some x ∨ some x ∈ s.nodes
  point : (lin s' op l' = lin s op l ∧ s'.abs = s.abs) ∨
    (lin s op l = none ∧ ∃ r, lin s' op l' = some r ∧ (stackObject V).apply op s.abs = (s'.abs, r))

/-- A step that only reads. -/
theorem read_ok (hf : ∀ v ∈ s.abs, v ≠ 0) (ho : owns l' = owns l) (hp : pushes l' = pushes l)
    (h : At (insert s W) s op l') (hw : ∀ x, watches l' = some x → watches l = some x ∨ some x ∈ s.nodes)
    (hl : lin s op l' = lin s op l) : StepOk W s op l s l' := by
  refine ⟨?_, hf, h, hw, Or.inl ⟨hl, rfl⟩⟩
  rw [ho, hp]
  exact .skip

theorem add_ok (w : Wf s) (hf : ∀ v ∈ s.abs, v ≠ 0) {item : V} (h : At W s (.add item) l) {a : A}
    (hstep : step a s l = some (s', l')) : StepOk W s (.add item) l s' l' := by
  cases l with
  | alloc v =>
    obtain ⟨rfl, hv⟩ := h
    have hg : s.given a = false := by
      by_contra hg
      rw [Bool.not_eq_false] at hg
      simp only [step, hg, if_true] at hstep
      cases hstep
    simp only [step, hg, Bool.false_eq_true, if_false] at hstep
    cases hstep
    have hact : Act s none none (s.allocate a v) (some a) (some a) := .alloc hg
    have habs : (s.allocate a v).abs = s.abs := abs_congr w rfl fun b => mem_allocate w hg
    have hmem : (s.allocate a v).mem a = ⟨v, none⟩ := Function.update_self ..
    refine ⟨hact, by rw [habs]; exact hf, ⟨hv, (hact.wf w nofun).2 a rfl, ?_⟩, nofun, Or.inl ⟨rfl, habs⟩⟩
    exact congrArg StackqueueNodePadded.item hmem
  | addTop node =>
    cases hstep
    exact read_ok hf rfl rfl h nofun rfl
  | setNext node top =>
    cases hstep
    obtain ⟨hv, ho, hi⟩ := h
    have hown : ∀ x, (some node : Option A) = some x → s.Owned x := by
      rintro x ⟨⟩
      exact ho
    have hact : Act s (some node) (some node) (s.setNext node top) (some node) (some node) := .setNext
    have habs : (s.setNext node top).abs = s.abs := abs_congr w rfl fun b => mem_setNext ho
    have hmem : (s.setNext node top).mem node = { s.mem node with next := top } :=
      Function.update_self ..
    refine ⟨hact, by rw [habs]; exact hf, ⟨hv, (hact.wf w hown).2 node rfl, ?_, ?_⟩, nofun,
      Or.inl ⟨rfl, habs⟩⟩
    · exact (congrArg StackqueueNodePadded.item hmem).trans hi
    · exact congrArg StackqueueNodePadded.next hmem
  | push node top =>
    obtain ⟨hv, ho, hi, hn⟩ := h
    by_cases ht : s.top = top
    · simp only [step, casTop, if_pos ht] at hstep
      cases hstep
      have habs := abs_push w (hn.trans ht.symm)
      refine ⟨.push (hn.trans ht.symm), fun v hv' => ?_, trivial, nofun, Or.inr ⟨rfl, _, rfl, ?_⟩⟩
      · rw [habs, hi] at hv'
        rcases List.mem_cons.mp hv' with rfl | hv'
        · exact hv
        · exact hf v hv'
      · rw [habs, hi]
        rfl
    · simp only [step, casTop, if_neg ht] at hstep
      cases hstep
      exact read_ok hf rfl rfl ⟨hv, ho, hi⟩ nofun rfl
  | added =>
    cases hstep
    exact read_ok hf rfl rfl trivial nofun rfl
  | _ => exact h.elim

theorem remove_ok (w : Wf s) (hf : ∀ v ∈ s.abs, v ≠ 0) (h : At W s .remove l) {a : A}
    (hstep : step a s l = some (s', l')) : StepOk W s .remove l s' l' := by
  cases l with
  | removeTop =>
    rcases ht : s.top with _ | top
    · simp only [step, ht] at hstep
      cases hstep
      exact read_ok hf rfl rfl ⟨s, Set.mem_insert _ _, abs_nil ht⟩ nofun rfl
    · simp only [step, ht] at hstep
      cases hstep
      refine read_ok hf rfl rfl trivial (fun x hx => Or.inr ?_) rfl
      cases hx
      exact mem_nodes_of_top w ht
  | loadNext top =>
    cases hstep
    exact read_ok hf rfl rfl (fun _ => rfl) (fun x hx => Or.inl hx) rfl
  | pop top next =>
    by_cases ht : s.top = some top
    · simp only [step, casTop, if_pos ht] at hstep
      cases hstep
      obtain rfl : s.next (some top) = next := h (mem_nodes_of_top w ht)
      have hact : Act s none none { s with top := s.next (some top) } (some top) none := .pop ht
      have habs := abs_cons w ht
      refine ⟨hact, fun v hv => hf v ?_, ⟨(hact.wf w nofun).2 top rfl, hf _ ?_⟩, nofun,
        Or.inr ⟨rfl, _, rfl, ?_⟩⟩
      · rw [habs]
        exact List.mem_cons_of_mem _ hv
      · rw [habs]
        exact List.mem_cons_self
      · rw [habs]
        rfl
    · simp only [step, casTop, if_neg ht] at hstep
      cases hstep
      exact read_ok hf rfl rfl trivial nofun rfl
  | loadItem top =>
    cases hstep
    exact read_ok hf rfl rfl h nofun rfl
  | release top val =>
    cases hstep
    exact ⟨.free, hf, h.2, nofun, Or.inl ⟨rfl, rfl⟩⟩
  | done val =>
    cases hstep
    exact read_ok hf rfl rfl h nofun rfl
  | empty =>
    cases hstep
    obtain ⟨s₀, h0, h1⟩ := h
    exact read_ok hf rfl rfl ⟨s₀, Set.mem_insert_of_mem _ h0, h1⟩ nofun rfl
  | _ => exact h.elim

theorem step_ok (w : Wf s) (hf : ∀ v ∈ s.abs, v ≠ 0) (h : At W s op l) {a : A}
    (hstep : step a s l = some (s', l')) : StepOk W s op l s' l' := by
  cases op with
  | add item => exact add_ok w hf h hstep
  | remove => exact remove_ok w hf h hstep

theorem owns_of_pushes {x : A} (h : pushes l = some x) : owns l = some x := by
  cases l <;> first | exact h | cases h

theorem refers_of_watches {x : A} (h : watches l = some x) : Refers l x := by
  cases l <;> cases h
  · rfl
  · exact Or.inl rfl

/-- What one thread asserts, after a step of another. -/
theorem At.keeps {W₁ : Set (TreiberStack A V)} (h : At W s op₁ l₁) (w : Wf s)
    (hok : StepOk W₁ s op l s' l')
    (ho : ∀ x, owns l = some x → s.Owned x) (ha : Apart (op, l) (op₁, l₁))
    (hnew : ∀ x, s.given x = false → s'.given x = true → ¬ Refers l₁ x) :
    At (insert s' W) s' op₁ l₁ ∧ lin s' op₁ l₁ = lin s op₁ l₁ ∧ Apart (op, l') (op₁, l₁) := by
  have howned : ∀ {y}, owns l₁ = some y → s'.Owned y ∧ s'.mem y = s.mem y ∧ owns l' ≠ some y :=
    fun hy => hok.act.owned w ho (h.owned _ hy) fun hl => ha.owns _ hl hy
  have hwatched : ∀ {y}, watches l₁ = some y →
      (some y ∈ s'.nodes → some y ∈ s.nodes ∧ s'.next (some y) = s.next (some y)) ∧ pushes l' ≠ some y :=
    fun hy => hok.act.watched w ho (fun hl => ha.left _ hl hy)
      fun hg => hnew _ hg.1 hg.2 (refers_of_watches hy)
  have hitem : ∀ {y}, owns l₁ = some y → s'.item y = s.item y :=
    fun hy => congrArg StackqueueNodePadded.item (howned hy).2.1
  refine ⟨?_, ?_, fun x hx hy => (howned hy).2.2 hx, fun x hx hy => (hwatched hy).2 hx, fun x hx hy => ?_⟩
  · cases op₁ with
    | add item =>
      cases l₁ with
      | alloc v => exact h
      | addTop node =>
        obtain ⟨hv, hn, hi⟩ := h
        exact ⟨hv, (howned rfl).1, (hitem rfl).trans hi⟩
      | setNext node top =>
        obtain ⟨hv, hn, hi⟩ := h
        exact ⟨hv, (howned rfl).1, (hitem rfl).trans hi⟩
      | push node top =>
        obtain ⟨hv, hn, hi, ht⟩ := h
        refine ⟨hv, (howned rfl).1, (hitem rfl).trans hi, ?_⟩
        exact (congrArg StackqueueNodePadded.next (howned rfl).2.1).trans ht
      | added => trivial
      | _ => exact h.elim
    | remove =>
      cases l₁ with
      | removeTop => trivial
      | loadNext => trivial
      | pop top next =>
        intro hm
        obtain ⟨h1, h2⟩ := (hwatched rfl).1 hm
        exact h2.trans (h h1)
      | loadItem top => exact ⟨(howned rfl).1, by rw [hitem rfl]; exact h.2⟩
      | release top val => exact ⟨(howned rfl).1, h.2⟩
      | done val => exact h
      | empty =>
        obtain ⟨s₀, h0, h1⟩ := h
        exact ⟨s₀, Set.mem_insert_of_mem _ h0, h1⟩
      | _ => exact h.elim
  · cases l₁
    case loadItem top => exact congrArg (fun v => some (Answer.val v)) (hitem rfl)
    all_goals rfl
  · -- what is read off the stack is in nobody's hands
    rcases hok.watches x hy with hy | hm
    · exact ha.right x hx hy
    · exact (h.owned x (owns_of_pushes hx)).2 hm

/-! ### The invariant -/

section run

variable {mem : A → StackqueueNodePadded A V}

theorem Wf.initial : Wf (TreiberStack.empty mem) := by
  have hn : (TreiberStack.empty mem).nodes = [] := nodes_nil
  refine ⟨by rw [hn]; rfl, fun a h => ?_⟩
  rw [hn] at h
  cases h

def outline : Outline (program T mem) NoReuse fun _ _ => False where
  glob _ s := Wf s ∧ ∀ v ∈ s.abs, v ≠ 0
  loc _ _ W s op l := At W s op l
  pair := Apart
  pair_symm h := ⟨fun x hx hy => h.owns x hy hx, h.right, h.left⟩
  init := by
    refine ⟨Wf.initial, fun v hv => ?_⟩
    rw [abs_nil rfl] at hv
    cases hv
  frame hg _ := hg
  call t hg hs hp := by
    rename_i op
    cases op with
    | add item => exact ⟨rfl, hp item rfl⟩
    | remove => trivial
  call_pair := by
    intro op g
    cases op <;> exact ⟨nofun, nofun, fun _ _ => nofun⟩
  tau := by
    intro es c t op l i s' l' hr ht hres hstep hok ⟨w, hf⟩ hat
    have h := step_ok w hf hat hstep
    refine ⟨⟨(h.act.wf w hat.owned).1, h.filled⟩, ?_, fun u op₁ l₁ hu hu₁ hl₁ ha => ?_⟩
    · rw [extend_of_not id]
      exact h.next
    · obtain ⟨h1, -, h3⟩ := hl₁.keeps w h hat.owned ha fun x h0 h1 => hok x h0 h1 u op₁ l₁ hu₁
      exact ⟨h1, h3⟩

theorem linearizable [Fintype T] :
    LinearizableIf (stackObject V) (program T mem) NoReuse TreiberStack.abs := by
  refine Concur.linearizable (outline.points lin (abs_nil rfl) (fun s op => ?_) ?_ ?_)
  · cases op <;> rfl
  · intro es c t op l i s' l' hr hH ht hres hstep hok
    obtain ⟨w, hf⟩ := hH.glob
    have hat : At (since t es) c.shared op l := hH.loc t op l ht
    have h := step_ok w hf hat hstep
    refine ⟨h.point, fun u op₁ l₁ hu hu₁ => ?_⟩
    have hl₁ : At (since u es) c.shared op₁ l₁ := hH.loc u op₁ l₁ hu₁
    have ha : Apart (op, l) (op₁, l₁) := hH.pair t u _ _ (Ne.symm hu) ht hu₁
    exact (hl₁.keeps w h hat.owned ha fun x h0 h1 => hok x h0 h1 u op₁ l₁ hu₁).2.1
  · intro es c t op l r hr hH ht hres
    have hat : At (since t es) c.shared op l := hH.loc t op l ht
    cases op with
    | add item =>
      cases l <;> cases hres
      · exact Or.inl rfl
      · exact hat.elim
      · exact hat.elim
    | remove =>
      cases l <;> cases hres
      · exact hat.elim
      · exact Or.inl rfl
      · obtain ⟨s₀, h0, h1⟩ := hat
        exact Or.inr ⟨rfl, s₀, h0, by rw [h1]; rfl⟩

end run

/-- **The stack is last in, first out**, as long as no address is given out
while a call has it in a variable; `remove` returns 0 only if the stack was
empty, and with no call running nothing was lost or came out twice. -/
theorem stack_treiber_linearizable [Fintype T] [DecidableEq V] (mem : A → StackqueueNodePadded A V) :
    LinearizableIf (stackObject V) (program T mem) NoReuse TreiberStack.abs ∧
    ∀ es c, (program T mem).RunIf NoReuse es c →
      (∀ t l, c.threads t = some (.remove, l) → result l = some (.val 0) →
        ∃ s ∈ since t es, s.abs = []) ∧
      ((∀ t, c.threads t = none) →
        ∀ v, (added es).count v = (taken es).count v + c.shared.abs.count v) := by
  refine ⟨linearizable, fun es c hr => ⟨fun t l ht hres => ?_, fun hidle v => ?_⟩⟩
  · have hat : At (since t es) c.shared .remove l := (outline.holds hr).loc t _ _ ht
    cases l <;> cases hres
    · exact absurd rfl hat
    · exact hat
  · exact LinearizableIf.count linearizable isBag_stack (fun _ h => h) hr hidle v

end StackTreiber

end Ascylib
