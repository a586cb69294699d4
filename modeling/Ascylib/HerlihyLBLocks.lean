/-
# The locks of the skip list with optimistic locks

What a thread holds is what its place in the call says (`held_iff`), so it
holds nothing between calls. It asks for locks from right to left only: first
for the node that it removes, then for the predecessors from level 0 up, each
to the left of all before it. `unlock_levels` compares neighbours in the array
just as the loop before it did, and gives back exactly what that loop took: the
locks are counted along the run (`acquired`, `released`).

Key definitions: `wants`, `locks`, `acquired`, `released`.
Key theorem: `herlihy_lb_locks`.
-/
import Ascylib.SkiplistHerlihyLB
import Ascylib.Concur.Locks

set_option linter.unusedSectionVars false

namespace Ascylib

open Concur Chain

namespace SkiplistHerlihyLB

open MarkedSkipHeap

variable {T K V : Type*} [DecidableEq T] [LinearOrder K] [Zero V]

/-- The lock that the next step asks for. -/
def wants : Pc T V → Option (Ptr T)
  | .removeLock _ node => some node
  | .lock _ lists i _ => some (lists.preds i)
  | _ => none

/-- Who holds which lock, and who asks for which. -/
def locks (c : Config T (Call K V) (MarkedSkipHeap T K V) (Pc T V)) : LockTable T (Ptr T) where
  wants t := (c.threads t).bind fun f => wants f.2
  holds t := {x | c.shared.lock x = some t}

/-- The loop that locks the predecessors begins: `preds[0]` is not `NULL`. -/
def LoopStart : Pc T V → Prop
  | .lock _ _ 0 0 => True
  | _ => False

/-- `unlock_levels` begins. -/
def UnlockStart : Pc T V → Prop
  | .unlock _ 0 _ _ _ => True
  | _ => False

variable [BoundedOrder K] {t u : T} {S W S' W' : Set (MarkedSkipHeap T K V)}
  {s s' : MarkedSkipHeap T K V} {op : Call K V} {levelmax level : ℕ} {a : Lists T} {q : Caller T}
  {i high : ℕ} {x : Ptr T} {l l' : Pc T V} {A R : Set (Ptr T)}

/-- The locks that thread `t` has acquired since it last began the locking loop. -/
def acquired (levelmax : ℕ) (t : T)
    (es : Trace T (Call K V) (Answer V) (MarkedSkipHeap T K V) (Pc T V)) : Set (Ptr T) :=
  (program T K V levelmax).gained (fun s => {x | s.lock x = some t}) (fun _ l => LoopStart l) t es

/-- The locks that it has released since it last began `unlock_levels`. -/
def released (levelmax : ℕ) (t : T)
    (es : Trace T (Call K V) (Answer V) (MarkedSkipHeap T K V) (Pc T V)) : Set (Ptr T) :=
  (program T K V levelmax).gained (fun s => {x | s.lock x ≠ some t}) (fun _ l => UnlockStart l) t es

/-! ### The order of the locks -/

/-- A call asks only for a lock to the left of all that it holds. -/
theorem lt_of_wants (h : At levelmax t S W s op l) (hx : wants l = some x) {y : Ptr T}
    (hy : y ∈ holds l) : s.key x < s.key y := by
  cases l
  case removeLock => exact absurd hy (Set.notMem_empty y)
  case lock q lists i high =>
    obtain ⟨h1, h2, h3, h4⟩ := h
    cases hx
    rcases hy with hy | ⟨j, hj, rfl⟩
    · have hlt := (h1.lists.pred i i.zero_le (h2.trans_le h1.caller.le)).2
      rcases q with top | _ | ⟨n, top⟩
      · exact absurd hy (Set.notMem_empty y)
      · exact absurd hy (Set.notMem_empty y)
      · obtain rfl : y = n := hy
        exact hlt.trans_eq h1.caller.2.key.symm
    · exact h4 j (hj.trans_le h3)
  all_goals cases hx

omit [BoundedOrder K] in
/-- A call that cannot take its next step asks for a lock that is taken. -/
theorem wants_of_waits (hst : step level t s op l = none) :
    ∃ x, wants l = some x ∧ s.lock x ≠ none := by
  have hacq : ∀ y, s.acquire t y = none → s.lock y ≠ none := by
    intro y hy h
    simp [acquire, h] at hy
  cases l
  case removeLock lists node => exact ⟨node, rfl, hacq node (Option.map_eq_none_iff.mp hst)⟩
  case lock q lists i high => exact ⟨_, rfl, hacq _ (Option.map_eq_none_iff.mp hst)⟩
  case insertAlloc => cases op <;> cases hst
  case insertFill | insertLink | unlock =>
    simp only [step] at hst
    split_ifs at hst
  all_goals cases hst

/-- A call acquires only the lock that it asks for. -/
theorem wants_of_acquired (hstep : step level t s op l = some (s', l'))
    (hx : s'.lock x = some t) : s.lock x = some t ∨ wants l = some x := by
  have hacq : ∀ {y s₁}, s.acquire t y = some s₁ → s₁.lock x = some t →
      s.lock x = some t ∨ y = x := by
    intro y s₁ ha h
    obtain ⟨-, rfl⟩ := acquire_eq_some ha
    rw [lock_setLock] at h
    split_ifs at h with hxy
    · exact Or.inr hxy.symm
    · exact Or.inl h
  have hrel : ∀ {y}, (s.release y).lock x = some t → s.lock x = some t := by
    intro y h
    rw [release, lock_setLock] at h
    split_ifs at h
    exact h
  cases l
  case removeLock =>
    obtain ⟨s₁, ha, he⟩ := Option.map_eq_some_iff.mp hstep
    cases he
    exact (hacq ha hx).imp_right (congrArg some)
  case lock =>
    obtain ⟨s₁, ha, he⟩ := Option.map_eq_some_iff.mp hstep
    cases he
    exact (hacq ha hx).imp_right (congrArg some)
  case insertAlloc top lists high =>
    left
    cases op <;> cases hstep
    · exact hx
    · by_cases hn : x = .node t (s.count t)
      · subst hn
        simp [MarkedSkipHeap.lock] at hx
      · exact (congrArg SlMarked.lock (Memory.mem_allocate_of_ne s x _ t hn)).symm.trans hx
    · exact hx
  case insertFill | insertLink =>
    left
    simp only [step] at hstep
    split_ifs at hstep <;> cases hstep
    · rwa [lock_setNext] at hx
    · exact hx
  case unlock =>
    left
    simp only [step] at hstep
    split_ifs at hstep <;> cases hstep
    · exact hrel hx
    · exact hx
    · exact hx
  all_goals
    left
    cases hstep
    first
      | exact hx
      | exact hrel hx
      | simpa using hx

/-! ### What the loops take and give back -/

/-- What the loop has acquired, and what `unlock_levels` has released. -/
def Book (A R : Set (Ptr T)) : Pc T V → Prop
  | .lock _ lists _ high | .predMarked _ lists _ high | .succMarked _ lists _ high |
    .predNext _ lists _ high | .insertAlloc _ lists high | .insertFill _ lists high _ _ |
    .insertLink _ lists high _ _ | .insertFull _ lists high _ | .removeNext lists high _ _ |
    .removeStore lists high _ _ _ | .removeVal lists high _ | .removeFree lists high _ _ |
    .removeUnlock lists high _ _ => A = lists.taken high
  | .unlock lists i _ high _ => A = lists.taken high ∧ R = lists.taken i
  | _ => True

/-- What the loop has acquired after a step. -/
def more (A : Set (Ptr T)) (l l' : Pc T V) : Set (Ptr T) :=
  {x | ¬ LoopStart l' ∧ (x ∈ A ∨ x ∈ holds l' ∧ x ∉ holds l)}

/-- What `unlock_levels` has released after a step. -/
def less (R : Set (Ptr T)) (l l' : Pc T V) : Set (Ptr T) :=
  {x | ¬ UnlockStart l' ∧ (x ∈ R ∨ x ∉ holds l' ∧ x ∈ holds l)}

omit [LinearOrder K] [Zero V] [BoundedOrder K] in
theorem more_eq (hl : ¬ LoopStart l') (hh : holds l' ⊆ holds l) (h : A = a.taken high) :
    more A l l' = a.taken high := by
  refine Eq.trans (Set.ext fun x => ?_) h
  exact ⟨fun h => h.2.resolve_right fun h => h.2 (hh h.1), fun h => ⟨hl, Or.inl h⟩⟩

omit [LinearOrder K] [Zero V] [BoundedOrder K] in
theorem more_start (hl : LoopStart l') : more A l l' = ∅ :=
  Set.eq_empty_of_forall_notMem fun _ h => h.1 hl

omit [LinearOrder K] [Zero V] [BoundedOrder K] in
theorem less_start (hl : UnlockStart l') : less R l l' = ∅ :=
  Set.eq_empty_of_forall_notMem fun _ h => h.1 hl

/-- The loop begins. -/
theorem book_start (h : At levelmax t S W s op (lockLevel q a 0 .null 0))
    (hq : 0 < q.toplevel) :
    Book (more A l (lockLevel q a 0 .null 0)) R (lockLevel q a 0 .null 0 : Pc T V) := by
  unfold lockLevel at h ⊢
  rw [if_pos hq] at h ⊢
  split_ifs at h ⊢
  · have hmore : more A l (.lock q a 0 0) = ∅ := more_start trivial
    exact hmore.trans (taken_zero a).symm
  · obtain ⟨-, -, -, j, hj, -⟩ := h
    exact absurd hj j.not_lt_zero

/-- The loop goes on. -/
theorem book_level {prevPred : Ptr T} (h : A = a.taken high) (hl : q.victim ∪ a.taken high ⊆ holds l) :
    Book (more A l (lockLevel q a (i + 1) prevPred high)) R
      (lockLevel q a (i + 1) prevPred high : Pc T V) := by
  unfold lockLevel
  split_ifs
  · exact more_eq id hl h
  · exact more_eq id hl h
  · match q with
    | .insert top => exact more_eq id (fun _ hx => hl (Or.inr hx)) h
    | .remove => trivial
    | .removing n 0 => exact more_eq id hl h
    | .removing n (m + 1) => exact more_eq id hl h

/-- The way out begins. -/
theorem book_unlock {z : After T V} (h : A = a.taken high) (hl : z.victim ∪ a.taken high ⊆ holds l) :
    Book (more A l (.unlock a 0 .null high z)) (less R l (.unlock a 0 .null high z))
      (.unlock a 0 .null high z : Pc T V) := by
  have hless : less R l (.unlock a 0 .null high z) = ∅ := less_start trivial
  refine ⟨more_eq id (fun x hx => hl ?_) h, hless.trans (taken_zero a).symm⟩
  exact hx.imp_right fun h => h.1

section step

variable (w : Wf levelmax S s) (hW : W ⊆ S) (hb : ⊥ < op.key) (ht : op.key < ⊤) (hpos : 0 < levelmax)
  (hl : Holds t s l)
  (h : At levelmax t S W s op l) (h' : At levelmax t S' W' s' op l')
  (hstep : step level t s op l = some (s', l')) (hbk : Book A R l)

include w hW hb ht hpos hl h h' hstep hbk

theorem book_step : Book (more A l l') (less R l l') l' := by
  cases l
  case left =>
    cases hstep
    rw [w.head_top]
    cases levelmax <;> trivial
  case find q =>
    cases hstep
    rw [w.head_top]
    obtain ⟨m, rfl⟩ := Nat.exists_eq_succ_of_ne_zero hpos.ne'
    trivial
  case leftEq pred curr i =>
    cases hstep
    split_ifs
    · trivial
    · cases i <;> trivial
  case findEq q pred curr i lists found =>
    cases hstep
    cases i with
    | succ i => trivial
    | zero =>
      have hq := h.1
      simp only [findLevel, findDone] at h' ⊢
      split at h' <;> first
        | trivial
        | exact book_start h' hq.2.1
        | exact book_start h' hq.2.pos
  case removeLock lists n =>
    obtain ⟨s₁, -, he⟩ := Option.map_eq_some_iff.mp hstep
    cases he
    trivial
  case removeMark lists n top =>
    cases hstep
    obtain ⟨-, -, h1, h2, -, h3, -⟩ := h
    obtain ⟨h4, h5⟩ := inner_of_key w hW hb ht h2
    exact book_start h' (h3 ▸ (w.tall h1 h4 h5).1)
  case lock q lists i high =>
    obtain ⟨s₁, ha, he⟩ := Option.map_eq_some_iff.mp hstep
    cases he
    obtain ⟨h1, h2, h3, h4⟩ := h
    have hfresh : lists.preds i ∉ holds (.lock q lists i high : Pc T V) := by
      intro hx
      have hf := (acquire_eq_some ha).1
      rw [hl _ hx] at hf
      cases hf
    have htaken := h1.taken_eq h3
    ext x
    constructor
    · rintro ⟨-, hx | ⟨hx, hn⟩⟩
      · rw [htaken]
        exact Or.inr (hbk ▸ hx)
      · exact hx.resolve_left fun hx => hn (Or.inl hx)
    · intro hx
      refine ⟨id, ?_⟩
      rw [htaken] at hx
      rcases hx with rfl | hx
      · exact Or.inr ⟨Or.inr ⟨i, i.lt_succ_self, rfl⟩, hfresh⟩
      · exact Or.inl (hbk ▸ hx)
  case predMarked q lists i high =>
    cases hstep
    split_ifs
    · cases q <;> exact more_eq id subset_rfl hbk
    · exact book_unlock hbk subset_rfl
  case succMarked q lists i high =>
    cases hstep
    split_ifs
    · exact more_eq id subset_rfl hbk
    · exact book_unlock hbk subset_rfl
  case predNext q lists i high =>
    cases hstep
    split_ifs
    · exact book_level hbk subset_rfl
    · exact book_unlock hbk subset_rfl
  case insertAlloc top lists high =>
    obtain ⟨⟨⟨⟨k, v, rfl⟩, -⟩, -⟩, -⟩ := h
    cases hstep
    exact more_eq id subset_rfl hbk
  case insertFill top lists high n i =>
    simp only [step] at hstep
    split_ifs at hstep <;> cases hstep <;> exact more_eq id subset_rfl hbk
  case insertLink top lists high n i =>
    simp only [step] at hstep
    split_ifs at hstep <;> cases hstep <;> exact more_eq id subset_rfl hbk
  case insertFull top lists high n =>
    cases hstep
    exact book_unlock hbk (Set.empty_union _).subset
  case removeStore lists high n i r =>
    cases hstep
    cases i <;> exact more_eq id subset_rfl hbk
  case removeNext | removeVal | removeFree =>
    cases hstep
    exact more_eq id subset_rfl hbk
  case removeUnlock lists high n v =>
    cases hstep
    exact book_unlock hbk (Set.union_subset_union_left _ (Set.empty_subset _))
  case unlock lists i old high z =>
    obtain ⟨h1, h2, h3, -, -, h4⟩ := h
    obtain ⟨hA, hR⟩ := hbk
    have hnext : i < high → Book (more A (.unlock lists i old high z)
        (.unlock lists (i + 1) (lists.preds i) high z)) (less R (.unlock lists i old high z)
        (.unlock lists (i + 1) (lists.preds i) high z))
        (.unlock lists (i + 1) (lists.preds i) high z : Pc T V) := by
      intro hi
      refine ⟨more_eq id ?_ hA, ?_⟩
      · rintro x (hx | ⟨hx, hn⟩)
        · exact Or.inl hx
        · exact Or.inr ⟨hx, fun h => hn (taken_mono i.le_succ h)⟩
      · ext x
        constructor
        · rintro ⟨-, hx | ⟨hn, hx | ⟨hx, -⟩⟩⟩
          · exact taken_mono i.le_succ (hR ▸ hx)
          · exact absurd (Or.inl hx) hn
          · by_contra hx'
            exact hn (Or.inr ⟨hx, hx'⟩)
        · intro hx
          refine ⟨id, ?_⟩
          by_cases hxi : x ∈ lists.taken i
          · exact Or.inl (hR ▸ hxi)
          · rw [taken_succ] at hx
            obtain rfl := hx.resolve_right hxi
            refine Or.inr ⟨?_, Or.inr ⟨⟨i, hi, rfl⟩, hxi⟩⟩
            rintro (hv | ⟨-, hn⟩)
            · exact h1.not_victim (hi.trans_le h2) h4 hv
            · exact hn ⟨i, i.lt_succ_self, rfl⟩
    simp only [step] at hstep
    split_ifs at hstep with hi <;> cases hstep
    · exact hnext hi
    · exact hnext hi
    · cases z <;> trivial
  all_goals
    cases hstep
    first
      | trivial
      | (split_ifs <;> trivial)

end step

/-! ### Runs -/

variable [Nontrivial K] (hpos : 0 < levelmax)
  {es : Trace T (Call K V) (Answer V) (MarkedSkipHeap T K V) (Pc T V)}
  {c : Config T (Call K V) (MarkedSkipHeap T K V) (Pc T V)}
  (hr : (program T K V levelmax).Run es c)

include hpos hr

/-- Whoever holds a lock is in a call that holds it. -/
theorem exists_of_lock (hx : c.shared.lock x = some t) :
    ∃ op l, c.threads t = some (op, l) ∧ x ∈ holds l := by
  have hO := fun {es c} (hr : (program T K V levelmax).Run es c) => (outline hpos).holds hr
  obtain ⟨u, op, l, hu, hxl⟩ := hr.responsible (Q := fun s => s.lock x = some t)
    (A := fun _ l => x ∈ holds l) (fun h => by cases x <;> cases h)
    (fun {op l r} hres hx => by cases l <;> cases hres <;> cases hx)
    (fun {es c u op l i s' l'} hr hu _ hstep _ hQ => by
      have hok := step_ok_of_run hpos hr i hu hstep
      by_cases hut : u = t
      · subst hut
        exact (hok.locks x).mp hQ
      · have hQ' := ((hok.act.keeps (hO hr).glob).locks (Ne.symm hut) x).mp hQ
        refine Or.inr ⟨fun hx => hut ?_, hQ'⟩
        exact Option.some.inj ((((hO hr).loc u op l hu).2.2.2.1 x hx).symm.trans hQ')) hx
  have hlock := ((hO hr).loc u op l hu).2.2.2.1 x hxl
  obtain rfl : u = t := Option.some.inj (hlock.symm.trans hx)
  exact ⟨op, l, hu, hxl⟩

/-- **A call holds the locks that its place says, and no others.** -/
theorem held_iff (ht : c.threads t = some (op, l)) : c.shared.lock x = some t ↔ x ∈ holds l := by
  refine ⟨fun hx => ?_, ((outline hpos).holds hr).loc t op l ht |>.2.2.2.1 x⟩
  obtain ⟨op₁, l₁, ht₁, hx₁⟩ := exists_of_lock hpos hr hx
  cases ht.symm.trans ht₁
  exact hx₁

/-- What the loops have taken and given back. -/
theorem book_of_run (ht : c.threads t = some (op, l)) :
    Book (acquired levelmax t es) (released levelmax t es) l := by
  induction hr generalizing t op l with
  | init => cases ht
  | @step es c e c' hr hst _ ih =>
    have hother : e.thread ≠ t → c.threads t = some (op, l) →
        Book (acquired levelmax t ((e, c') :: es)) (released levelmax t ((e, c') :: es)) l := by
      intro he ht
      rw [acquired, released, Program.gained_of_ne he, Program.gained_of_ne he]
      exact ih ht
    cases hst with
    | @call u op₁ hu hp =>
      rcases update_eq_some.mp ht with ⟨-, h⟩ | ⟨hne, h⟩
      · cases h
        cases op <;> trivial
      · exact hother (Ne.symm hne) h
    | @tau u op₁ l₁ s' l' i hu hres hstep =>
      rcases update_eq_some.mp ht with ⟨rfl, h⟩ | ⟨hne, h⟩
      · cases h
        obtain ⟨hW, hh, hc, hl, hat⟩ := ((outline hpos).holds hr).loc t op l₁ hu
        have hok := step_ok_of_run hpos hr i hu hstep
        have hr' : (program T K V levelmax).Run _ _ := .step hr (.tau i hu hres hstep) trivial
        have hb := book_step ((outline hpos).holds hr).glob hW hc.1 hc.2.1 hpos hl hat hok.next hstep
          (ih hu)
        have h₀ := fun x => held_iff (x := x) hpos hr hu
        have h₁ := fun x => held_iff (x := x) hpos hr' (Function.update_self ..)
        have hA : acquired levelmax t ((.tau t, ⟨s', Function.update c.threads t
            (some (op, l))⟩) :: es) = more (acquired levelmax t es) l₁ l := by
          rw [acquired, Program.gained_tau, hr.last_eq]
          ext x
          show (¬ LoopStart l ∧ (x ∈ acquired levelmax t es ∨
            s'.lock x = some t ∧ ¬ c.shared.lock x = some t)) ↔ _
          rw [h₀ x, h₁ x]
          rfl
        have hR : released levelmax t ((.tau t, ⟨s', Function.update c.threads t
            (some (op, l))⟩) :: es) = less (released levelmax t es) l₁ l := by
          rw [released, Program.gained_tau, hr.last_eq]
          ext x
          show (¬ UnlockStart l ∧ (x ∈ released levelmax t es ∨
            ¬ s'.lock x = some t ∧ ¬ ¬ c.shared.lock x = some t)) ↔ _
          rw [not_not, h₀ x, h₁ x]
          rfl
        rw [hA, hR]
        exact hb
      · exact hother (Ne.symm hne) h
    | ret =>
      rcases update_eq_some.mp ht with ⟨-, h⟩ | ⟨hne, h⟩
      · cases h
      · exact hother (Ne.symm hne) h

/-- Locks are asked for from right to left. -/
theorem ordered : (locks c).Ordered fun x => OrderDual.toDual (c.shared.key x) := by
  intro t x hx y hy
  obtain ⟨⟨op, l⟩, ht, hx⟩ := Option.bind_eq_some_iff.mp hx
  exact lt_of_wants (((outline hpos).holds hr).loc t op l ht).2.2.2.2 hx
    ((held_iff hpos hr ht).mp hy)

/-- A call that waits waits for another call. -/
theorem waitsFor_of_waits (hw : (program T K V levelmax).Waits c t) :
    ∃ u, u ≠ t ∧ (locks c).WaitsFor t u := by
  obtain ⟨op, l, ht, -, hst⟩ := hw
  obtain ⟨x, hx, hlk⟩ := wants_of_waits (hst ⟨0, hpos⟩)
  obtain ⟨u, hu⟩ := Option.ne_none_iff_exists'.mp hlk
  have hwants : (locks c).wants t = some x := Option.bind_eq_some_iff.mpr ⟨_, ht, hx⟩
  refine ⟨u, ?_, x, hwants, hu⟩
  rintro rfl
  exact lt_irrefl _ (ordered hpos hr u x hwants x hu)

/-- Nothing is held between calls, or at the end of one. -/
theorem holds_nothing (ht : ∀ op l, c.threads t = some (op, l) → ∃ r, result l = some r)
    (x : Ptr T) : c.shared.lock x ≠ some t := by
  intro hx
  obtain ⟨op, l, htl, hxl⟩ := exists_of_lock hpos hr hx
  obtain ⟨r, hres⟩ := ht op l htl
  cases l <;> cases hres <;> cases hxl

omit hr in
/-- **The locks of the skip list are taken and given back in order.** A call
acquires only the lock that it asks for, which it does not hold and which is to
the left of all that it holds. When `unlock_levels` is through, it has released
exactly what the loop before it acquired, and only the victim is still held; at
the end of a call nothing is. So no calls wait for each other in a circle. -/
theorem herlihy_lb_locks : ∀ es c, (program T K V levelmax).Run es c →
    (∀ t op l i s' l', c.threads t = some (op, l) → step i t c.shared op l = some (s', l') →
      ∀ x, s'.lock x = some t → c.shared.lock x = some t ∨ (locks c).wants t = some x) ∧
    (∀ t x, (locks c).wants t = some x → x ∉ (locks c).holds t ∧
      ∀ y ∈ (locks c).holds t, c.shared.key x < c.shared.key y) ∧
    (∀ t op lists high old after, c.threads t = some (op, .unlock lists high old high after) →
      released levelmax t es = acquired levelmax t es ∧ (locks c).holds t = after.victim) ∧
    (∀ t op l r, c.threads t = some (op, l) → result l = some r → (locks c).holds t = ∅) ∧
    (∀ t, (program T K V levelmax).Waits c t → ∃ u, u ≠ t ∧ (locks c).WaitsFor t u) ∧
    ∀ t, ¬ Relation.TransGen (locks c).WaitsFor t t := by
  intro es c hr
  have hord := ordered hpos hr
  refine ⟨fun t op l i s' l' ht hstep x hx => ?_, fun t x hx => ⟨fun h => ?_, hord t x hx⟩,
    fun t op lists high old after ht => ⟨?_, ?_⟩, fun t op l r ht hres => ?_,
    fun t => waitsFor_of_waits hpos hr, hord.acyclic⟩
  · refine (wants_of_acquired hstep hx).imp_right fun h => ?_
    exact Option.bind_eq_some_iff.mpr ⟨_, ht, h⟩
  · exact lt_irrefl _ (hord t x hx x h)
  · obtain ⟨h1, h2⟩ := book_of_run hpos hr ht
    exact h2.trans h1.symm
  · ext x
    have hx := held_iff (x := x) hpos hr ht
    rw [holds, Set.sdiff_self, Set.union_empty] at hx
    exact hx
  · refine Set.eq_empty_of_forall_notMem (holds_nothing hpos hr fun op₁ l₁ ht₁ => ?_)
    cases ht.symm.trans ht₁
    exact ⟨r, hres⟩

omit hr hpos in
/-- Three threads, keys 1 to 8, and nodes of up to four levels. -/
theorem herlihy_lb_locks_three :
    ¬ Relation.TransGen (locks (program (Fin 3) (Fin 10) ℕ 4).initial).WaitsFor 0 0 :=
  (herlihy_lb_locks (by decide) [] _ .init).2.2.2.2.2 0

end SkiplistHerlihyLB

end Ascylib
