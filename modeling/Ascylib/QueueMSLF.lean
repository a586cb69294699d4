/-
# The lock-free queue of Michael and Scott

`src/algorithms/queue_ms_lf.h`. `add` takes `next` through a second read of
`set->tail`, so until its check `next` may come from a later node than `tail`.
That `tail` is `set->tail` again means that both reads gave the same node, since
`set->tail` only moves on. The CAS on `tail->next` can then only succeed at the
last node, and there `tail` is still `set->tail`.

Key theorem: `queue_ms_lf_linearizable`.
-/
import Ascylib.MsDequeue

set_option linter.unusedSectionVars false
set_option linter.constructorNameAsVariable false

namespace Ascylib

open Concur MsQueue

namespace QueueMSLF

variable {T V : Type*} [DecidableEq T]

/-- Where an `add` is, with the local variables that are live there. -/
inductive AddPc (T V : Type*) where
  /-- `node = allocate_stackqueue_node(item, NULL)` -/
  | alloc (item : V)
  /-- `tail = set->tail` -/
  | loadTail (node : Ptr T)
  /-- `set->tail` in `next = set->tail->next` -/
  | loadTailAgain (node tail : Ptr T)
  /-- `next = tail2->next`, where `tail2` is what the second read gave -/
  | loadNext (node tail tail2 : Ptr T)
  /-- `tail == set->tail`, and `next == NULL` -/
  | check (node tail next : Ptr T)
  /-- `CAS_PTR(&tail->next, next, node) == next`, where `next` is `NULL` -/
  | link (node tail : Ptr T)
  /-- `CAS_PTR(&set->tail, tail, next)` -/
  | help (node tail next : Ptr T)
  /-- `CAS_PTR(&set->tail, tail, node)` -/
  | swing (node tail : Ptr T)
  /-- `return 1` -/
  | done

/-- The next access of an `add` of thread `me`, and what follows from it. -/
def addStep (me : T) (s : MsQueue T V) : AddPc T V → MsQueue T V × AddPc T V
  | .alloc item =>
    let (s', node) := s.allocateStackqueueNode me item
    (s', .loadTail node)
  | .loadTail node => (s, .loadTailAgain node s.tail)
  | .loadTailAgain node tail => (s, .loadNext node tail s.tail)
  | .loadNext node tail tail2 => (s, .check node tail (s.next tail2))
  | .check node tail next =>
    (s, if tail = s.tail then
        if next = .null then .link node tail else .help node tail next
      else .loadTail node)
  | .link node tail =>
    match s.casNext tail .null node with
    | (true, s') => (s', .swing node tail)
    | (false, s') => (s', .loadTail node)
  | .help node tail next => ((s.casTail tail next).2, .loadTail node)
  | .swing node tail => ((s.casTail tail node).2, .done)
  | .done => (s, .done)

inductive Pc (T V : Type*) where
  | add (l : AddPc T V)
  | remove (l : RemovePc T V)

def start : SqCall V → Pc T V
  | .add item => .add (.alloc item)
  | .remove => .remove .loadHead

def step (me : T) (s : MsQueue T V) : Pc T V → MsQueue T V × Pc T V
  | .add l => (addStep me s l).map id .add
  | .remove l => (removeStep s l).map id .remove

def result [Zero V] : Pc T V → Option (Answer V)
  | .add .done => some (.flag true)
  | .remove l => l.result
  | _ => none

/-- The queue, for clients that keep to the interface. -/
def program (T V : Type*) [DecidableEq T] [Zero V] :
    Program T (SqCall V) (Answer V) (MsQueue T V) (Pc T V) Unit where
  init := MsQueue.empty
  pre := SqClient
  start := start
  step _ me s _ l := some (step me s l)
  result := result

/-! ### The assertions -/

variable [Zero V]

def AddAt (t : T) (s : MsQueue T V) (item : V) : AddPc T V → Prop
  | .alloc v => v = item
  | .loadTail node => Own t s item node
  | .loadTailAgain node tail => Own t s item node ∧ s.WasTail tail
  | .loadNext node tail tail2 => Own t s item node ∧ s.WasTail tail ∧ s.WasTail tail2 ∧
      tail2 ∈ s.onward tail
  | .check node tail next => Own t s item node ∧ s.WasTail tail ∧
      ∃ tail2, s.WasTail tail2 ∧ tail2 ∈ s.onward tail ∧ (next ≠ .null → s.next tail2 = next)
  | .link node tail => Own t s item node ∧ s.WasTail tail
  | .help node tail next => Own t s item node ∧ s.WasTail tail ∧ next ≠ .null ∧ s.next tail = next
  | .swing node tail => tail ∈ s.all ∧ node ≠ .null ∧ s.next tail = node
  | .done => True

/-- The result of an `add` that has linked its node. -/
def addLin : AddPc T V → Option (Answer V)
  | .swing _ _ => some (.flag true)
  | .done => some (.flag true)
  | _ => none

/-- What holds at each local state of thread `t`, whose call has seen the
queues `W`. -/
def At (t : T) (W : Set (MsQueue T V)) (s : MsQueue T V) : SqCall V → Pc T V → Prop
  | .add item, .add l => item ≠ 0 ∧ AddAt t s item l
  | .remove, .remove l => RemoveAt (∃ s₀ ∈ W, s₀.abs = []) s l
  | _, _ => False

def lin (s : MsQueue T V) (_ : SqCall V) : Pc T V → Option (Answer V)
  | .add l => addLin l
  | .remove l => removeLin s l

variable {t u : T} {s s' : MsQueue T V} {W : Set (MsQueue T V)} {item : V}

theorem AddAt.keeps {l : AddPc T V} (h : AddAt u s item l) (k : Keeps t s s') (hu : u ≠ t) :
    AddAt u s' item l := by
  cases l with
  | alloc v => exact h
  | loadTail node => exact Own.keeps h k hu
  | loadTailAgain node tail => exact ⟨h.1.keeps k hu, h.2.keeps k⟩
  | loadNext node tail tail2 =>
    obtain ⟨h1, h2, h3, h4⟩ := h
    exact ⟨h1.keeps k hu, h2.keeps k, h3.keeps k, k.onward h2.1 h4⟩
  | check node tail next =>
    obtain ⟨h1, h2, tail2, h3, h4, h5⟩ := h
    refine ⟨h1.keeps k hu, h2.keeps k, tail2, h3.keeps k, k.onward h2.1 h4, fun hn => ?_⟩
    rw [k.next h3.1 (by rw [h5 hn]; exact hn), h5 hn]
  | link node tail => exact ⟨h.1.keeps k hu, h.2.keeps k⟩
  | help node tail next =>
    obtain ⟨h1, h2, h3, h4⟩ := h
    exact ⟨h1.keeps k hu, h2.keeps k, h3, by rw [k.next h2.1 (by rw [h4]; exact h3), h4]⟩
  | swing node tail =>
    obtain ⟨h1, h2, h3⟩ := h
    exact ⟨k.all h1, h2, by rw [k.next h1 (by rw [h3]; exact h2), h3]⟩
  | done => trivial

/-- What a step does: it is one of the writes, it leads to the next assertion,
and it changes the items only where the call takes effect. -/
structure AddOk (t : T) (s : MsQueue T V) (item : V) (l : AddPc T V) (s' : MsQueue T V) (l' : AddPc T V) :
    Prop where
  act : Act t s s'
  head : s'.head = s.head
  next : AddAt t s' item l'
  point : (addLin l' = addLin l ∧ s'.abs = s.abs) ∨
    (addLin l = none ∧ addLin l' = some (.flag true) ∧
      s'.abs = s.abs ++ [item])

theorem AddOk.read {l l' : AddPc T V} (h : AddAt t s item l')
    (hl : addLin l' = addLin l) : AddOk t s item l s l' :=
  ⟨.skip, rfl, h, Or.inl ⟨hl, rfl⟩⟩

theorem addStep_ok (w : Wf s) {l : AddPc T V} (h : AddAt t s item l) :
    AddOk t s item l (addStep t s l).1 (addStep t s l).2 := by
  have htail : s.WasTail s.tail := ⟨w.tail, w.self w.tail⟩
  cases l with
  | alloc v =>
    obtain rfl : v = item := h
    exact ⟨allocate_act w, rfl, allocate_own w, Or.inl ⟨rfl, allocate_abs w⟩⟩
  | loadTail node => exact .read ⟨h, htail⟩ rfl
  | loadTailAgain node tail => exact .read ⟨h.1, h.2, htail, h.2.2⟩ rfl
  | loadNext node tail tail2 =>
    obtain ⟨h1, h2, h3, h4⟩ := h
    exact .read ⟨h1, h2, tail2, h3, h4, fun _ => rfl⟩ rfl
  | check node tail next =>
    obtain ⟨h1, h2, tail2, h3, h4, h5⟩ := h
    simp only [addStep]
    split_ifs with ht hn
    · exact .read ⟨h1, h2⟩ rfl
    · -- the two reads of `set->tail` gave the same node
      have he : tail2 = tail := mem_nodes_antisymm (ht ▸ h3.2) h4
      exact .read ⟨h1, h2, hn, he ▸ h5 hn⟩ rfl
    · exact .read h1 rfl
  | link node tail =>
    obtain ⟨h1, h2⟩ := h
    by_cases hz : s.next tail = .null
    · -- at the last node `tail` is `set->tail`
      have he : s.tail = tail := eq_of_last h2.2 hz
      subst he
      simp only [addStep, casNext, if_pos hz]
      have hact := h1.link_act w hz
      refine ⟨hact, rfl, ⟨(hact.keeps w).all w.tail, h1.ne_null, next_setNext_self ..⟩, ?_⟩
      exact Or.inr ⟨rfl, rfl, h1.link_abs w hz⟩
    · simp only [addStep, casNext, if_neg hz]
      exact .read h1 rfl
  | help node tail next =>
    obtain ⟨h1, h2, h3, h4⟩ := h
    by_cases ht : s.tail = tail
    · subst ht
      simp only [addStep, casTail, if_true]
      rw [← h4]
      exact ⟨.swing (by rw [h4]; exact h3), rfl, h1, Or.inl ⟨rfl, rfl⟩⟩
    · simp only [addStep, casTail, if_neg ht]
      exact .read h1 rfl
  | swing node tail =>
    obtain ⟨h1, h2, h3⟩ := h
    by_cases ht : s.tail = tail
    · subst ht
      simp only [addStep, casTail, if_true]
      rw [← h3]
      exact ⟨.swing (by rw [h3]; exact h2), rfl, trivial, Or.inl ⟨rfl, rfl⟩⟩
    · simp only [addStep, casTail, if_neg ht]
      exact .read trivial rfl
  | done => exact .read trivial rfl

/-! ### The steps -/

/-- A step of the queue. -/
structure StepOk (t : T) (W : Set (MsQueue T V)) (s : MsQueue T V) (op : SqCall V) (l : Pc T V)
    (s' : MsQueue T V) (l' : Pc T V) : Prop where
  act : Act t s s'
  inv : Inv s'
  next : At t (insert s' W) s' op l'
  point : (lin s' op l' = lin s op l ∧ s'.abs = s.abs) ∨
    (lin s op l = none ∧ ∃ r, lin s' op l' = some r ∧ (queueObject V).apply op s.abs = (s'.abs, r))

theorem step_ok (hs : s ∈ W) (i : Inv s) {op : SqCall V} {l : Pc T V} (h : At t W s op l) :
    StepOk t W s op l (step t s l).1 (step t s l).2 := by
  cases op with
  | add item =>
    cases l with
    | remove l => exact h.elim
    | add l =>
      obtain ⟨hne, h⟩ := h
      obtain ⟨hact, hhead, hnext, hpoint⟩ := addStep_ok i.wf h
      refine ⟨hact, ⟨hact.wf i.wf, hact.behind i.wf i.behind (Or.inl hhead), ?_⟩, ⟨hne, hnext⟩,
        hpoint.imp_right fun ⟨h1, h2, h3⟩ => ⟨h1, _, h2, ?_⟩⟩
      · exact i.filled.add hne (hpoint.imp And.right fun h => h.2.2)
      · show (s.abs ++ [item], _) = ((addStep t s l).1.abs, _)
        rw [h3]
  | remove =>
    cases l with
    | add l => exact h.elim
    | remove l =>
      have hact : Act t s (removeStep s l).1 := removeStep_act i.wf h t
      refine ⟨hact, ⟨hact.wf i.wf, hact.behind i.wf i.behind (removeStep_head i.wf h),
        removeStep_filled i.wf h i.filled⟩, ?_, removeStep_point i.wf h⟩
      refine removeStep_at i.wf i.behind h i.filled (fun ⟨s₀, h0, h1⟩ => ?_) fun habs => ?_
      · exact ⟨s₀, Set.mem_insert_of_mem _ h0, h1⟩
      · exact ⟨s, Set.mem_insert_of_mem _ hs, habs⟩

theorem At.keeps {op : SqCall V} {l : Pc T V} (h : At u W s op l) (w : Wf s) (k : Keeps t s s')
    (hu : u ≠ t) : At u (insert s' W) s' op l ∧ lin s' op l = lin s op l := by
  cases op with
  | add item =>
    cases l with
    | remove l => exact h.elim
    | add l => exact ⟨⟨h.1, h.2.keeps k hu⟩, rfl⟩
  | remove =>
    cases l with
    | add l => exact h.elim
    | remove l =>
      refine ⟨RemoveAt.keeps h w k fun ⟨s₀, h0, h1⟩ => ?_, RemoveAt.lin_keeps h k⟩
      exact ⟨s₀, Set.mem_insert_of_mem _ h0, h1⟩

def outline : Outline (program T V) (fun _ _ _ _ => True) fun _ _ => False where
  glob _ s := Inv s
  loc t _ W s op l := At t W s op l
  pair _ _ := True
  pair_symm := id
  init := Inv.initial
  frame hg _ := hg
  call t hg hs hp := by
    rename_i op
    cases op with
    | add item => exact ⟨hp item rfl, rfl⟩
    | remove => trivial
  call_pair := trivial
  tau := by
    intro es c t op l i s' l' hr ht hres hstep _ hg hl
    have hok := step_ok (hr.shared_mem_window _ ht) hg hl
    rw [show step t c.shared l = (s', l') from Option.some.inj hstep] at hok
    refine ⟨hok.inv, ?_, fun u op₁ l₁ hu _ hl₁ _ => ⟨?_, trivial⟩⟩
    · rw [extend_of_not id]
      exact hok.next
    · exact (hl₁.keeps hg.wf (hok.act.keeps hg.wf) hu).1

section run

variable {es : Trace T (SqCall V) (Answer V) (MsQueue T V) (Pc T V)}
  {c : Config T (SqCall V) (MsQueue T V) (Pc T V)}

theorem inv (hr : (program T V).Run es c) : Inv c.shared := (outline.holds hr).glob

theorem at_loc (hr : (program T V).Run es c) {op : SqCall V} {l : Pc T V}
    (ht : c.threads t = some (op, l)) : At t (since t es) c.shared op l :=
  (outline.holds hr).loc t op l ht

end run

theorem linearizable [Fintype T] :
    Linearizable (queueObject V) (program T V) MsQueue.abs := by
  refine Concur.linearizable (outline.points lin abs_empty (fun s op => ?_) ?_ ?_)
  · cases op <;> rfl
  · intro es c t op l i s' l' hr hH ht hres hstep _
    have hok := step_ok (hr.shared_mem_window _ ht) hH.glob (hH.loc t op l ht)
    rw [show step t c.shared l = (s', l') from Option.some.inj hstep] at hok
    refine ⟨hok.point, fun u op₁ l₁ hu ht₁ => ?_⟩
    exact ((hH.loc u op₁ l₁ ht₁).keeps hH.glob.wf (hok.act.keeps hH.glob.wf) hu).2
  · intro es c t op l r hr hH ht hres
    have hat : At t (since t es) c.shared op l := hH.loc t op l ht
    cases op with
    | add item =>
      cases l with
      | remove l => exact hat.elim
      | add l =>
        cases l <;> cases hres
        exact Or.inl rfl
    | remove =>
      cases l with
      | add l => exact hat.elim
      | remove l =>
        cases l <;> cases hres
        · exact Or.inl rfl
        · obtain ⟨s₀, h0, h1⟩ := hat
          exact Or.inr ⟨rfl, s₀, h0, by rw [h1]; rfl⟩

/-- **The queue is first in, first out**, `remove` returns 0 only if it was empty,
`tail` is in it at the last or the last but one node and not freed, and with no
call running its size is that of the adds less the successful removes. -/
theorem queue_ms_lf_linearizable [Fintype T] [DecidableEq V] :
    Linearizable (queueObject V) (program T V) MsQueue.abs ∧
    ∀ es c, (program T V).Run es c →
      (c.shared.tail ∈ c.shared.onward c.shared.head ∧
        (c.shared.next c.shared.tail = .null ∨ c.shared.next (c.shared.next c.shared.tail) = .null) ∧
        c.shared.tail ∉ c.shared.memory.freed) ∧
      (∀ t l, c.threads t = some (.remove, l) → result l = some (.val 0) →
        ∃ s ∈ since t es, s.abs = []) ∧
      ((∀ t, c.threads t = none) →
        (∀ v, (added es).count v = (taken es).count v + c.shared.abs.count v) ∧
        ∀ fuel, (c.shared.onward c.shared.head).length ≤ fuel →
          (added es).length = (taken es).length + c.shared.countFrom fuel c.shared.head) := by
  refine ⟨linearizable, fun es c hr => ?_⟩
  have i := inv hr
  refine ⟨⟨i.behind, i.wf.last, fun hf => (i.wf.freed _ hf).2 i.behind⟩, fun t l ht hres => ?_,
    fun hidle => ⟨fun v => ?_, fun fuel hf => ?_⟩⟩
  · have hat : At t (since t es) c.shared .remove l := at_loc hr ht
    rcases l with l | l
    · exact hat.elim
    · cases l <;> cases hres
      · exact absurd rfl hat
      · exact hat
  · exact LinearizableIf.count linearizable isBag_queue (fun _ h => h) hr hidle v
  · rw [i.wf.countFrom_eq i.wf.head hf, LinearizableIf.length linearizable isBag_queue (fun _ h => h) hr hidle,
      i.wf.abs_eq, List.length_map]

end QueueMSLF

end Ascylib
