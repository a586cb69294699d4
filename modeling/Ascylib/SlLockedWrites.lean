/-
# The writes of the skip list with OPTIK locks

What a thread may write while it holds some locks (`Act`), and what that does to
the levels: nothing, or a new node is linked at one level, or a deleted one is
unlinked from one (`Change`).

The proofs turn on the nodes that lean. Such a node appears when the thread that
deleted it unlinks it, under the lock of the node that stands in for it then.
A lock is given back only when no victim of the thread leans, and a lock that is
taken was free, so its node stood in for none (`Act.mine`).

Key definitions: `Act.change`, `Seen`, `Version`.
Key theorems: `Act.wf`, `Act.keeps`, `Act.mine`, `Version.next_eq`, `seen_next`.
-/
import Ascylib.SlLocked

set_option linter.unusedSectionVars false

namespace Ascylib

open Concur Chain

namespace LockedSkipHeap

variable {T K V : Type*} [DecidableEq T] [LinearOrder K] [BoundedOrder K] {levelmax : ℕ} {t u : T}
  {S W : Set (LockedSkipHeap T K V)} {s s' : LockedSkipHeap T K V}
  {H X H' X' H₁ X₁ : Set (Ptr T)} {x p : Ptr T} {i j : ℕ}

/-! ### The writes -/

theorem setNext_swing (s : LockedSkipHeap T K V) (p : Ptr T) (i : ℕ) (q : Ptr T) :
    (view T K V).Swing s (s.setNext p i q) i p q where
  other y hy := mem_setNext_of_ne s p y q i hy
  key := key_setNext s p p q i
  val := val_setNext s p p q i
  dead := by
    show (s.setNext p i q).state p = false ∨ (s.setNext p i q).lock p = optikDeleted ↔
      s.state p = false ∨ s.lock p = optikDeleted
    rw [state_setNext, lock_setNext]
  next := next_setNext_self s p q i
  levels j hj := next_setNext_of_ne s p p q i j (Or.inr hj)
  count := rfl

/-- A write to a node that leaves key, value and pointers alone. -/
theorem modify_same (S : Set (LockedSkipHeap T K V)) (s : LockedSkipHeap T K V) (x : Ptr T)
    {f : SlLocked T K V → SlLocked T K V} (hk : ∀ n, (f n).key = n.key) (hv : ∀ n, (f n).val = n.val)
    (hn : ∀ n, (f n).next = n.next) : (view T K V).Same S s (s.modify x f) :=
  fun i => ⟨fun y _ => s.field_modify x y SlLocked.key hk, fun y _ => s.field_modify x y SlLocked.val hv,
    fun y _ _ => s.field_modify x y (fun n => n.next i) fun n => congrFun (hn n) i, fun _ => le_rfl⟩

theorem setLock_same (S : Set (LockedSkipHeap T K V)) (s : LockedSkipHeap T K V) (x : Ptr T)
    (v : OptikT) : (view T K V).Same S s (s.setLock x v) :=
  modify_same S s x (fun _ => rfl) (fun _ => rfl) fun _ => rfl

theorem setState_same (S : Set (LockedSkipHeap T K V)) (s : LockedSkipHeap T K V) (x : Ptr T) :
    (view T K V).Same S s (s.setState x) :=
  modify_same S s x (fun _ => rfl) (fun _ => rfl) fun _ => rfl

theorem ssmemFree_same (w : Wf levelmax S s) (x : Ptr T) : (view T K V).Same S s (s.ssmemFree x) :=
  TowerView.same_of_mem (fun _ _ => rfl) (fun _ _ => w.pub_zero) fun _ => le_rfl

/-- A node that a thread allocates has not been linked. -/
theorem alloc_ne (w : Wf levelmax S s) (t : T) (hx : Pub 0 S x) : x ≠ .node t (s.count t) := by
  rintro rfl
  exact s.not_allocated_next t ((w.listed 0).alloc _ hx)

theorem alloc_same (w : Wf levelmax S s) (t : T) (n : SlLocked T K V) :
    (view T K V).Same S s (s.allocate t n).1 :=
  TowerView.same_of_mem (fun x hx => s.mem_allocate_of_ne x n t (alloc_ne w t hx))
    (fun _ _ => w.pub_zero) (s.count_le_allocate n t)

/-- A pointer of a node that is not linked there. -/
theorem fill_same {m : ℕ} (hn : ¬ Pub i S (.node t m)) (q : Ptr T) :
    (view T K V).Same S s (s.setNext (.node t m) i q) := by
  intro j
  refine ⟨fun y _ => key_setNext s _ y q i, fun y _ => val_setNext s _ y q i, fun y hy _ => ?_,
    fun _ => le_rfl⟩
  refine next_setNext_of_ne s _ y q i j ?_
  by_contra h
  rw [not_or, not_not, not_not] at h
  exact hn (h.1 ▸ h.2 ▸ hy)

/-- What a write does to the levels: nothing, or it links a new node at one
level, or it unlinks a deleted node from one. -/
inductive Change (levelmax : ℕ) (t : T) (S : Set (LockedSkipHeap T K V)) (s : LockedSkipHeap T K V)
    (H X : Set (Ptr T)) : Set (Ptr T) → LockedSkipHeap T K V → Prop
  | same {X₁ : Set (Ptr T)} {s₁ : LockedSkipHeap T K V} : X ⊆ X₁ → (view T K V).Same S s s₁ →
      (∀ j x, Pub j S x → s₁.next x j = s.next x j) → Change levelmax t S s H X X₁ s₁
  | link {p : Ptr T} {m i : ℕ} : p ∈ H → Locked s p → Lnk i s p → ¬ Pub i S (.node t m) →
      m < s.count t → (∀ j < i, Pub j S (.node t m)) → s.next (.node t m) i = s.next p i →
      s.key p < s.key (.node t m) → s.key (.node t m) < s.key (s.next p i) →
      i < s.toplevel (.node t m) → s.toplevel (.node t m) ≤ levelmax →
      s.state (.node t m) = false → X = ∅ →
      (∀ j x, Lnk j (s.setNext p i (.node t m)) x ↔ Lnk j s x ∨ j = i ∧ x = .node t m) →
      (∀ j x, Pub j (insert (s.setNext p i (.node t m)) S) x ↔ Pub j S x ∨ j = i ∧ x = .node t m) →
      Change levelmax t S s H X X (s.setNext p i (.node t m))
  | unlink {p c : Ptr T} {i : ℕ} {X₁ : Set (Ptr T)} : p ∈ H → Locked s p → Lnk i s p →
      s.next p i = c → s.lock c = optikDeleted → X = {c} → p ≠ .tail → c ≠ .tail →
      X₁ = X ∨ X₁ = ∅ ∧ (∀ j, j ≠ i → ¬ Lnk j s c) →
      (∀ j x, Lnk j (s.setNext p i (s.next c i)) x ↔ Lnk j s x ∧ ¬ (j = i ∧ x = c)) →
      (∀ j x, Pub j (insert (s.setNext p i (s.next c i)) S) x ↔ Pub j S x) →
      Change levelmax t S s H X X₁ (s.setNext p i (s.next c i))

namespace Act

section

variable (a : Act levelmax t S s H X H' X' s') (w : Wf levelmax S s)

include a w

theorem count (u : T) : s.count u ≤ s'.count u := by
  cases a
  case alloc n _ _ => exact s.count_le_allocate n t u
  all_goals exact le_rfl

theorem change : Change levelmax t S s H X X' s' := by
  cases a with
  | skip =>
    exact .same le_rfl (fun _ => ⟨fun _ _ => rfl, fun _ _ => rfl, fun _ _ _ => rfl, fun _ => le_rfl⟩)
      fun _ _ _ => rfl
  | free x => exact .same le_rfl (ssmemFree_same w x) fun _ _ _ => rfl
  | alloc =>
    refine .same le_rfl (alloc_same w t _) fun j x hx => ?_
    exact congrArg (fun n => n.next j) (s.mem_allocate_of_ne x _ t (alloc_ne w t (w.pub_zero hx)))
  | take => exact .same le_rfl (setLock_same S s _ _) fun j x _ => next_setLock s _ x j _
  | unlock => exact .same le_rfl (setLock_same S s _ _) fun j x _ => next_setLock s _ x j _
  | delete _ _ _ hX =>
    exact .same (by rw [hX]; exact Set.empty_subset _) (setLock_same S s _ _)
      fun j x _ => next_setLock s _ x j _
  | @fill q m i hn =>
    refine .same le_rfl (fill_same hn q) fun j x hx => next_setNext_of_ne s _ x q i j ?_
    by_contra h
    rw [not_or, not_not, not_not] at h
    exact hn (h.1 ▸ h.2 ▸ hx)
  | valid => exact .same le_rfl (setState_same S s _) fun j x _ => next_setState s _ x j
  | @link p m i hpH hp hl hn hm hd hnq h1 h2 ht htm hst hX =>
    have hpt := w.ne_tail_of_lt h1
    have hsw := setNext_swing s p i (.node t m)
    exact .link hpH hp hl hn hm hd hnq h1 h2 ht htm hst hX (hsw.link_lnk w.listed hl hpt hn hnq)
      (hsw.link_pub w.listed hl hpt hn hnq)
  | @unlink p c i _ hpH hp hl hpc hd hX hpt hct hX' =>
    have hsw := setNext_swing s p i (s.next c i)
    exact .unlink hpH hp hl hpc hd hX hpt hct hX' (hsw.unlink_lnk w.listed hl hpt hpc hct)
      (hsw.unlink_pub w.listed hl hpt hpc hct)

theorem listed : (view T K V).Listed (insert s' S) s' := by
  cases a.change w with
  | same _ h => exact fun j => (h j).listed (w.listed j)
  | @link p m i _ _ hl hn hm _ hnq h1 h2 =>
    exact (setNext_swing s p i _).link_listed w.listed hl (w.ne_tail_of_lt h1) hn hnq h1 h2
      ⟨t, m, rfl, hm⟩
  | @unlink p c i _ _ _ hl hpc _ _ hpt hct =>
    exact (setNext_swing s p i _).unlink_listed w.listed hl hpt hpc hct

theorem touch (x : Ptr T) : (optik T K V).Touch S s s' x ∨ s'.lock x = optikInit ∧
    ¬ s.Allocated x := by
  cases a with
  | skip => exact Or.inl (.keep rfl rfl)
  | free => exact Or.inl (.keep rfl rfl)
  | @alloc n _ hn =>
    by_cases hx : x = .node t (s.count t)
    · subst hx
      refine Or.inr ⟨?_, s.not_allocated_next t⟩
      show ((s.allocate t n).1.mem (s.allocate t n).2).lock = optikInit
      rw [s.mem_allocate_self, hn]
    · exact Or.inl (OptikView.touch_of_mem (s.mem_allocate_of_ne x n t hx))
  | @take y _ hu =>
    refine Or.inl ?_
    by_cases hx : x = y
    · subst hx
      exact .take hu (lock_setLock_self s x _) rfl
    · exact OptikView.touch_of_mem (mem_setLock_of_ne s y x _ hx)
  | @unlock y _ _ hl =>
    refine Or.inl ?_
    by_cases hx : x = y
    · subst hx
      exact .unlock hl.locked hl.ne_deleted (lock_setLock_self s x _)
    · exact OptikView.touch_of_mem (mem_setLock_of_ne s y x _ hx)
  | @delete y _ hu =>
    refine Or.inl ?_
    by_cases hx : x = y
    · subst hx
      exact .delete hu (lock_setLock_self s x _)
    · exact OptikView.touch_of_mem (mem_setLock_of_ne s y x _ hx)
  | fill => exact Or.inl (.keep (lock_setNext ..) rfl)
  | link => exact Or.inl (.keep (lock_setNext ..) rfl)
  | valid => exact Or.inl (.keep (lock_setState ..) rfl)
  | unlink => exact Or.inl (.keep (lock_setNext ..) rfl)

theorem versioned : (optik T K V).Versioned (insert s' S) s' :=
  w.versioned.step (a.count w) fun x hx => (a.touch w x).resolve_right fun h => h.2 hx

/-- What it does to the word of a node that has been linked. -/
theorem word (hx : Pub 0 S x) :
    s'.lock x = s.lock x ∨
    optikIsLocked (s.lock x) = false ∧ s'.lock x = s.lock x + 1 ∧ s'.lock x ≠ optikDeleted ∧ x ∈ H' ∨
    optikIsLocked (s.lock x) = false ∧ s'.lock x = optikDeleted ∧ s.state x = true ∧ x ∈ X' ∨
    x ∈ H ∧ Locked s x ∧ s'.lock x = s.lock x + 1 ∧ x ∉ H' ∧ ∀ y ∈ X, ∀ j, ¬ Leans j s y := by
  have hother : ∀ {y v}, x ≠ y → (s.setLock y v).lock x = s.lock x := fun hy =>
    lock_setLock_of_ne s _ x _ hy
  cases a with
  | skip => exact Or.inl rfl
  | free => exact Or.inl rfl
  | alloc => exact Or.inl (congrArg SlLocked.lock (s.mem_allocate_of_ne x _ t (alloc_ne w t hx)))
  | @take y _ hu hd =>
    by_cases hy : x = y
    · subst hy
      rw [lock_setLock_self]
      exact Or.inr (Or.inl ⟨hu, rfl, hd, Or.inl rfl⟩)
    · exact Or.inl (hother hy)
  | @unlock y hy _ hl hX =>
    by_cases hy : x = y
    · subst hy
      rw [lock_setLock_self]
      exact Or.inr (Or.inr (Or.inr ⟨‹_›, hl, rfl, fun h => h.2 rfl, hX⟩))
    · exact Or.inl (hother hy)
  | @delete y _ hu hst =>
    by_cases hy : x = y
    · subst hy
      rw [lock_setLock_self]
      exact Or.inr (Or.inr (Or.inl ⟨hu, rfl, hst, rfl⟩))
    · exact Or.inl (hother hy)
  | fill => exact Or.inl (lock_setNext ..)
  | link => exact Or.inl (lock_setNext ..)
  | valid => exact Or.inl (lock_setState ..)
  | unlink => exact Or.inl (lock_setNext ..)

/-- A pointer of a node that is linked changes under the lock of the node. -/
theorem next_eq (hx : Pub i S x) :
    s'.next x i = s.next x i ∨ x ∈ H ∧ Locked s x ∧ Lnk i s' x ∧ s'.lock x = s.lock x := by
  cases a.change w with
  | same _ _ hn => exact Or.inl (hn i x hx)
  | @link p m k hpH hp hl _ _ _ _ _ _ _ _ _ _ hlnk =>
    by_cases h : x = p ∧ i = k
    · obtain ⟨rfl, rfl⟩ := h
      exact Or.inr ⟨hpH, hp, (hlnk i x).mpr (Or.inl hl), lock_setNext ..⟩
    · exact Or.inl (next_setNext_of_ne s p x _ k i (not_and_or.mp h))
  | @unlink p c k _ hpH hp hl hpc hd _ _ _ _ hlnk =>
    by_cases h : x = p ∧ i = k
    · obtain ⟨rfl, rfl⟩ := h
      refine Or.inr ⟨hpH, hp, (hlnk i x).mpr ⟨hl, ?_⟩, lock_setNext ..⟩
      rintro ⟨-, rfl⟩
      exact hp.ne_deleted hd
    · exact Or.inl (next_setNext_of_ne s p x _ k i (not_and_or.mp h))

/-- The other fields of a node that has been linked. -/
theorem node (hx : Pub 0 S x) : s'.key x = s.key x ∧ s'.val x = s.val x ∧
    s'.toplevel x = s.toplevel x ∧ (s.state x = true → s'.state x = true) := by
  cases a with
  | skip => exact ⟨rfl, rfl, rfl, id⟩
  | free => exact ⟨rfl, rfl, rfl, id⟩
  | @alloc n =>
    have hm := s.mem_allocate_of_ne x n t (alloc_ne w t hx)
    refine ⟨congrArg SlLocked.key hm, congrArg SlLocked.val hm, congrArg SlLocked.toplevel hm, ?_⟩
    exact fun h => (congrArg SlLocked.state hm).trans h
  | take => simp
  | unlock => simp
  | delete => simp
  | fill => simp
  | link => simp
  | unlink => simp
  | @valid m =>
    refine ⟨key_setState .., val_setState .., toplevel_setState .., fun h => ?_⟩
    by_cases hxn : x = .node t m
    · rw [hxn]
      exact state_setState_self s _
    · rw [state_setState_of_ne s _ x hxn]
      exact h

/-- Only its owner ends the insert of a node. -/
theorem half (hf : s.state x = false) : s'.state x = false ∨
    ∃ m, x = .node t m ∧ Pub 0 S x ∧ ∀ i < s.toplevel x, Lnk i s x := by
  cases a with
  | skip => exact Or.inl hf
  | free => exact Or.inl hf
  | @alloc n hst =>
    by_cases hx : x = .node t (s.count t)
    · subst hx
      refine Or.inl ?_
      show ((s.allocate t n).1.mem (s.allocate t n).2).state = false
      rw [s.mem_allocate_self, hst]
    · exact Or.inl ((congrArg SlLocked.state (s.mem_allocate_of_ne x n t hx)).trans hf)
  | take => exact Or.inl ((state_setLock ..).trans hf)
  | unlock => exact Or.inl ((state_setLock ..).trans hf)
  | delete => exact Or.inl ((state_setLock ..).trans hf)
  | fill => exact Or.inl ((state_setNext ..).trans hf)
  | link => exact Or.inl ((state_setNext ..).trans hf)
  | unlink => exact Or.inl ((state_setNext ..).trans hf)
  | @valid m hp hl =>
    by_cases hx : x = .node t m
    · subst hx
      exact Or.inr ⟨m, rfl, hp, hl⟩
    · exact Or.inl ((state_setState_of_ne s _ x hx).trans hf)

/-- A node that has not been linked is its owner's. -/
theorem unpublished (hx : ¬ Pub 0 S x) : s'.mem x = s.mem x ∨ ∃ m, x = .node t m ∧
    s'.lock x = optikInit ∧ s'.state x = false := by
  have hself : ∀ {m i q}, x = .node t m → (s.setNext (.node t m) i q).lock x = optikInit ∧
      (s.setNext (.node t m) i q).state x = false := by
    rintro m i q rfl
    rw [lock_setNext, state_setNext]
    exact w.fresh hx
  cases a with
  | skip => exact Or.inl rfl
  | free => exact Or.inl rfl
  | @alloc n hst hn =>
    by_cases hxn : x = .node t (s.count t)
    · subst hxn
      refine Or.inr ⟨_, rfl, ?_⟩
      show ((s.allocate t n).1.mem (s.allocate t n).2).lock = optikInit ∧
        ((s.allocate t n).1.mem (s.allocate t n).2).state = false
      rw [s.mem_allocate_self]
      exact ⟨hn, hst⟩
    · exact Or.inl (s.mem_allocate_of_ne x n t hxn)
  | take hy => exact Or.inl (mem_setLock_of_ne s _ x _ fun h => hx (h ▸ hy))
  | unlock _ hy => exact Or.inl (mem_setLock_of_ne s _ x _ fun h => hx (h ▸ hy))
  | delete hy => exact Or.inl (mem_setLock_of_ne s _ x _ fun h => hx (h ▸ hy))
  | @fill q m i _ =>
    by_cases hxn : x = .node t m
    · exact Or.inr ⟨m, hxn, hself hxn⟩
    · exact Or.inl (mem_setNext_of_ne s _ x _ _ hxn)
  | valid hy => exact Or.inl (s.mem_modify_of_ne _ x _ fun h => hx (h ▸ hy))
  | link _ _ hp =>
    exact Or.inl (mem_setNext_of_ne s _ x _ _ fun h => hx (h ▸ w.pub_zero (w.pub_lnk hp)))
  | unlink _ _ hp =>
    exact Or.inl (mem_setNext_of_ne s _ x _ _ fun h => hx (h ▸ w.pub_zero (w.pub_lnk hp)))


/-! ### Leaning nodes -/

/-- A node that leans after the step leaned before it, or the step has just
unlinked it, and a node that the thread has locked stands in for it. -/
theorem leans_back (hx : Leans j s' x) :
    Leans j s x ∨ x ∈ X ∧ x ∈ X' ∧ ∃ p ∈ H, Locked s' p ∧ StandsIn j s' p x := by
  obtain ⟨⟨h, hjh, hl⟩, hn⟩ := hx
  cases a.change w with
  | same _ hsame _ =>
    exact Or.inl ⟨⟨h, hjh, ((hsame h).lnk (w.listed h) x).mp hl⟩,
      fun hlj => hn (((hsame j).lnk (w.listed j) x).mpr hlj)⟩
  | @link p m i _ _ _ hnp _ hdown _ _ _ _ _ hst _ hlnk =>
    rcases (hlnk h x).mp hl with hl | ⟨rfl, rfl⟩
    · exact Or.inl ⟨⟨h, hjh, hl⟩, fun hlj => hn ((hlnk j x).mpr (Or.inl hlj))⟩
    · -- the new node is linked at all levels below
      refine absurd ((hlnk j _).mpr ?_) hn
      rcases hjh.eq_or_lt with rfl | hlt
      · exact Or.inr ⟨rfl, rfl⟩
      · exact Or.inl (w.lnk (hdown j hlt) (w.not_deleted hst))
  | @unlink p c i _ hpH hp hpl hpc hd hX hpt hct hX' hlnk =>
    have hl' := (hlnk h x).mp hl
    by_cases hxc : j = i ∧ x = c
    · obtain ⟨rfl, rfl⟩ := hxc
      have hne : x ≠ p := fun he => hp.ne_deleted (he ▸ hd)
      have hxl : Lnk j s x := hpc ▸ hpl.next hpt
      have hnx := next_setNext_of_ne s p x (s.next x j) j j (Or.inl hne)
      refine Or.inr ⟨by rw [hX]; rfl, ?_, p, hpH, ⟨?_, ?_⟩, (hlnk j p).mpr ⟨hpl, ?_⟩, ?_, ?_, ?_⟩
      · rcases hX' with rfl | ⟨-, hgone⟩
        · rw [hX]
          rfl
        · exact absurd hl'.1 (hgone h fun he => hl'.2 ⟨he, rfl⟩)
      · rw [lock_setNext]
        exact hp.locked
      · rw [lock_setNext]
        exact hp.ne_deleted
      · exact fun he => hne he.2.symm
      · rw [key_setNext, key_setNext, ← hpc]
        exact (w.up (w.pub_lnk hpl) hpt).2
      · rw [next_setNext_self, hnx]
      · rw [hnx, key_setNext, key_setNext]
        exact (w.up (w.pub_lnk hxl) hct).2
    · exact Or.inl ⟨⟨h, hjh, hl'.1⟩, fun hlj => hn ((hlnk j x).mpr ⟨hlj, hxc⟩)⟩

/-- The victim is in the care of the thread while it leans. -/
theorem leans_mem (hx : x ∈ X) (hl : Leans j s' x) : x ∈ X' := by
  cases a.change w with
  | same h => exact h hx
  | link _ _ _ _ _ _ _ _ _ _ _ _ hX => exact hx
  | @unlink p c i _ _ _ _ _ _ hX _ _ hX' hlnk =>
    rcases hX' with rfl | ⟨-, hgone⟩
    · exact hx
    · obtain rfl : x = c := by rwa [hX] at hx
      obtain ⟨⟨h, -, hlh⟩, -⟩ := hl
      have := (hlnk h x).mp hlh
      exact absurd this.1 (hgone h fun he => this.2 ⟨he, rfl⟩)

/-- A leaning node keeps its pointer. -/
theorem next_of_leans (hx : Leans j s x) : s'.next x j = s.next x j :=
  (a.next_eq w (w.pub_from hx.1)).resolve_right fun h => h.2.1.ne_deleted (w.deleted_of_leans hx)

/-- Who stands in for a node after the step did before it, if the thread's
locked nodes stood in for its own victim only. -/
theorem stands_back (hc : Clear s H X) (hx : Leans j s x) (h : StandsIn j s' p x) :
    StandsIn j s p x := by
  have hnx := a.next_of_leans w hx
  have hkx := (a.node w (w.pub_zero (w.pub_from hx.1))).1
  have hkn := (a.node w (w.pub_zero (w.up (w.pub_from hx.1) (w.ne_tail_of_leans hx)).1)).1
  obtain ⟨h1, h2, h3, h4⟩ := h
  rw [hnx, hkx, hkn] at h4
  rw [hnx] at h3
  rw [hkx] at h2
  -- the stander was linked, or it is the node that was just linked
  have hold : Lnk j s p → s'.next p j = s.next p j → StandsIn j s p x := fun hl hn =>
    ⟨hl, by rwa [(a.node w (w.pub_zero (w.pub_lnk hl))).1] at h2, hn.symm.trans h3, h4⟩
  cases a.change w with
  | same _ hsame hn =>
    have hl := ((hsame j).lnk (w.listed j) p).mp h1
    exact hold hl (hn j p (w.pub_lnk hl))
  | @link q m i hqH hq hql hnp _ hdown hnq hk1 hk2 _ _ hst hX hlnk =>
    rcases (hlnk j p).mp h1 with hl | ⟨rfl, rfl⟩
    · by_cases he : p = q ∧ j = i
      · obtain ⟨rfl, rfl⟩ := he
        rw [next_setNext_self] at h3
        exact absurd (h3 ▸ (w.up (w.pub_from hx.1) (w.ne_tail_of_leans hx)).1) hnp
      · exact hold hl (next_setNext_of_ne s q p _ i j (not_and_or.mp he))
    · have hne : (.node t m : Ptr T) ≠ q := fun he => hnp (he ▸ w.pub_lnk hql)
      rw [key_setNext] at h2
      rw [next_setNext_of_ne s q _ _ j j (Or.inl hne), hnq] at h3
      exact absurd ⟨hql, hk1.trans h2, h3, h4⟩ (hc hqH (by rw [hX]; exact Set.notMem_empty x) hx)
  | @unlink q c i _ hqH hq hql hqc hd hX hqt hct _ hlnk =>
    have hl := ((hlnk j p).mp h1).1
    by_cases he : p = q ∧ j = i
    · -- the victim would have stood in for the node
      obtain ⟨rfl, rfl⟩ := he
      rw [next_setNext_self] at h3
      obtain ⟨r, hr, hs⟩ := w.standing s w.mem hx
      have hc' : Lnk j s c := hqc ▸ hql.next hqt
      have := w.next_inj hs.lnk hc' (w.stander_ne_tail hs) hct (hs.next.trans h3.symm)
      exact absurd (this ▸ hd) hr.ne_deleted
    · exact hold hl (next_setNext_of_ne s q p _ i j (not_and_or.mp he))

/-- Who stands in for a node goes on doing so. -/
theorem stands_on (hc : Clear s H X) (hx : Leans j s x) (hx' : Leans j s' x) (hp : Locked s p)
    (h : StandsIn j s p x) : Locked s' p ∧ StandsIn j s' p x := by
  have hnx := a.next_of_leans w hx
  have hp0 := w.pub_zero (w.pub_lnk h.lnk)
  have hkx := (a.node w (w.pub_zero (w.pub_from hx.1))).1
  have hkp := (a.node w hp0).1
  have hkn := (a.node w (w.pub_zero (w.up (w.pub_from hx.1) (w.ne_tail_of_leans hx)).1)).1
  have hmine : p ∈ H → x ∈ X := fun hpH => by
    by_contra hn
    exact hc hpH hn hx h
  have hlock : s'.lock p = s.lock p := by
    rcases a.word w hp0 with h1 | ⟨h1, -⟩ | ⟨h1, -⟩ | ⟨h1, -, -, -, h2⟩
    · exact h1
    · rw [hp.locked] at h1
      cases h1
    · rw [hp.locked] at h1
      cases h1
    · exact absurd hx (h2 x (hmine h1) j)
  refine ⟨⟨hlock ▸ hp.locked, hlock ▸ hp.ne_deleted⟩, ?_⟩
  suffices hl : Lnk j s' p ∧ s'.next p j = s.next p j from
    ⟨hl.1, by rw [hkp, hkx]; exact h.lt, by rw [hl.2, hnx]; exact h.next,
      by rw [hkx, hnx, hkn]; exact h.past⟩
  cases a.change w with
  | same _ hsame hn => exact ⟨((hsame j).lnk (w.listed j) p).mpr h.lnk, hn j p (w.pub_lnk h.lnk)⟩
  | @link q m i hqH hq hql hnp _ _ _ _ _ _ _ _ hX hlnk =>
    refine ⟨(hlnk j p).mpr (Or.inl h.lnk), next_setNext_of_ne s q p _ i j ?_⟩
    by_contra he
    rw [not_or, not_not, not_not] at he
    have := hmine (he.1 ▸ hqH)
    rw [hX] at this
    exact this
  | @unlink q c i _ hqH hq hql hqc hd hX _ _ _ hlnk =>
    refine ⟨(hlnk j p).mpr ⟨h.lnk, ?_⟩, next_setNext_of_ne s q p _ i j ?_⟩
    · rintro ⟨-, rfl⟩
      exact hp.ne_deleted hd
    · by_contra he
      rw [not_or, not_not, not_not] at he
      obtain ⟨rfl, rfl⟩ := he
      obtain rfl : x = c := by
        have := hmine hqH
        rwa [hX] at this
      exact hx.2 (hqc ▸ hql.next (w.stander_ne_tail h))

/-- Each leaning node has its stander. -/
theorem standing (hc : Clear s H X) : Standing s' := by
  intro j x hx
  rcases a.leans_back w hx with h | ⟨-, -, p, -, hp, hs⟩
  · obtain ⟨p, hp, hs⟩ := w.standing s w.mem h
    exact ⟨p, a.stands_on w hc h hx hp hs⟩
  · exact ⟨p, hp, hs⟩

/-! ### Well-formed skip lists -/

theorem clean (hu : optikIsLocked (s'.lock x) = false) (s₀ : LockedSkipHeap T K V) (h0 : s₀ ∈ S)
    (hl : Lnk i s₀ x) (he : sections (s₀.lock x) = sections (s'.lock x)) :
    s₀.next x i = s'.next x i := by
  have hp : Pub i S x := ⟨s₀, h0, hl⟩
  rcases a.word w (w.pub_zero hp) with h1 | ⟨h1, h2, -⟩ | ⟨-, h2, -⟩ | ⟨-, h1, h2, -⟩
  · rw [h1] at hu he
    rw [w.clean hu s₀ h0 hl he]
    exact ((a.next_eq w hp).resolve_right fun h => by rw [h.2.1.locked] at hu; cases hu).symm
  · rw [h2, lock_locked h1] at hu
    cases hu
  · rw [h2, optikDeleted_locked] at hu
    cases hu
  · -- a section has ended since
    have := w.versioned.mono s₀ h0 x (w.alloc s₀ h0 hl)
    have h3 : sections (s₀.lock x) ≤ sections (s.lock x) := this
    rw [he, h2, sections_unlock h1.locked h1.ne_deleted] at h3
    exact absurd h3 (Nat.not_succ_le_self _)

theorem dels (hd : s.lock x = optikDeleted) : s'.lock x = optikDeleted := by
  by_cases hx : Pub 0 S x
  · rcases a.word w hx with h | ⟨h, -⟩ | ⟨-, h, -⟩ | ⟨-, h, -⟩
    · exact h.trans hd
    · rw [hd, optikDeleted_locked] at h
      cases h
    · exact h
    · exact absurd hd h.ne_deleted
  · rw [(w.fresh hx).1] at hd
    exact absurd hd (by decide)

/-- A node that is linked stays linked, but for the victim. -/
theorem kept (hx : x ∉ X) (hl : Lnk i s x) : Lnk i s' x := by
  cases a.change w with
  | same _ h _ => exact ((h i).lnk (w.listed i) x).mpr hl
  | link _ _ _ _ _ _ _ _ _ _ _ _ _ hlnk => exact (hlnk i x).mpr (Or.inl hl)
  | unlink _ _ _ _ _ hX _ _ _ hlnk =>
    exact (hlnk i x).mpr ⟨hl, fun h => hx (by rw [h.2, hX]; rfl)⟩

/-- The thread links its own new node, whose word is not that of a deleted one. -/
theorem lnk_back (hl : Lnk i s' x) : Lnk i s x ∨ ¬ Pub i S x ∧ s'.lock x = s.lock x ∧
    s.state x = false ∧ (∀ j < i, Pub j S x) ∧ (i < s'.toplevel x ∧ s'.toplevel x ≤ levelmax) ∧
    ∃ m, x = .node t m := by
  cases a.change w with
  | same _ h _ => exact Or.inl (((h i).lnk (w.listed i) x).mp hl)
  | @link p m k _ _ _ hn _ hd _ _ _ ht htm hst _ hlnk =>
    refine ((hlnk i x).mp hl).imp_right ?_
    rintro ⟨rfl, rfl⟩
    rw [toplevel_setNext]
    exact ⟨hn, lock_setNext .., hst, hd, ⟨ht, htm⟩, m, rfl⟩
  | unlink _ _ _ _ _ _ _ _ _ hlnk => exact Or.inl ((hlnk i x).mp hl).1

theorem pub_back (hp : Pub i (insert s' S) x) : Pub i S x ∨ Lnk i s' x := by
  obtain ⟨s₀, h0, hl⟩ := hp
  rcases Set.mem_insert_iff.mp h0 with rfl | h0
  · exact Or.inr hl
  · exact Or.inl ⟨s₀, h0, hl⟩

theorem down (hp : Pub i (insert s' S) x) (hj : j ≤ i) : Pub j (insert s' S) x := by
  rcases a.pub_back w hp with h | h
  · exact (w.down h hj).insert s'
  · rcases a.lnk_back w h with h1 | ⟨-, -, -, h1, -⟩
    · exact (w.down (w.pub_lnk h1) hj).insert s'
    · rcases hj.eq_or_lt with rfl | hlt
      · exact hp
      · exact (h1 j hlt).insert s'

theorem lnk (hp : Pub i (insert s' S) x) (hd : s'.lock x ≠ optikDeleted) : Lnk i s' x := by
  rcases a.pub_back w hp with h | h
  · have hd' : s.lock x ≠ optikDeleted := fun h => hd (a.dels w h)
    cases a.change w with
    | same _ hs _ => exact ((hs i).lnk (w.listed i) x).mpr (w.lnk h hd')
    | link _ _ _ _ _ _ _ _ _ _ _ _ _ hlnk => exact (hlnk i x).mpr (Or.inl (w.lnk h hd'))
    | unlink _ _ _ _ hdc _ _ _ _ hlnk =>
      refine (hlnk i x).mpr ⟨w.lnk h hd', ?_⟩
      rintro ⟨-, rfl⟩
      exact hd' hdc
  · exact h

theorem up (hp : Pub i (insert s' S) x) (hx : x ≠ .tail) :
    Pub i (insert s' S) (s'.next x i) ∧ s'.key x < s'.key (s'.next x i) := by
  by_cases hl : Lnk i s' x
  · have w' := a.listed w i
    exact ⟨w'.pub_lnk (hl.next hx), w'.sorted.step x hl hx⟩
  · have hp := (a.pub_back w hp).resolve_right hl
    rw [(a.next_eq w hp).resolve_right fun h => hl h.2.2.1]
    obtain ⟨h1, h2⟩ := w.up hp hx
    rw [(a.node w (w.pub_zero hp)).1, (a.node w (w.pub_zero h1)).1]
    exact ⟨h1.insert s', h2⟩

theorem tall (hp : Pub i (insert s' S) x) (hh : x ≠ .head) (ht : x ≠ .tail) :
    i < s'.toplevel x ∧ s'.toplevel x ≤ levelmax := by
  have hold : Pub i S x → i < s'.toplevel x ∧ s'.toplevel x ≤ levelmax := fun h => by
    rw [(a.node w (w.pub_zero h)).2.2.1]
    exact w.tall h hh ht
  rcases a.pub_back w hp with h | h
  · exact hold h
  · rcases a.lnk_back w h with h1 | ⟨-, -, -, -, h1, -⟩
    · exact hold (w.pub_lnk h1)
    · exact h1

theorem full (hs : s'.state x = true) (hi : i < s'.toplevel x) : Pub i (insert s' S) x := by
  by_cases hx : Pub 0 S x
  · rw [(a.node w hx).2.2.1] at hi
    rcases hst : s.state x
    · rcases a.half w hst with h | ⟨m, rfl, -, h⟩
      · rw [hs] at h
        cases h
      · exact (w.pub_lnk (h i hi)).insert s'
    · exact (w.full hst hi).insert s'
  · rcases a.unpublished w hx with h | ⟨m, -, -, h⟩
    · have := (w.fresh hx).2
      rw [LockedSkipHeap.state, ← h] at this
      exact absurd (this.symm.trans hs) Bool.false_ne_true
    · rw [hs] at h
      cases h

theorem state (hd : s'.lock x = optikDeleted) : s'.state x = true := by
  by_cases hx : Pub 0 S x
  · have hst := (a.node w hx).2.2.2
    rcases a.word w hx with h | ⟨-, -, h, -⟩ | ⟨-, -, h, -⟩ | ⟨-, h1, h2, -⟩
    · exact hst (w.state (h ▸ hd))
    · exact absurd hd h
    · exact hst h
    · have := unlock_unlocked h1.locked h1.ne_deleted
      rw [← h2, hd, optikDeleted_locked] at this
      cases this
  · rcases a.unpublished w hx with h | ⟨m, -, h, -⟩
    · have := (w.fresh hx).1
      rw [LockedSkipHeap.lock, ← h] at this
      exact absurd (this.symm.trans hd) (by decide)
    · exact absurd (h.symm.trans hd) (by decide)

theorem inner (hs : s'.state x = true) : x ≠ .head ∧ x ≠ .tail := by
  rcases hst : s.state x
  · rcases a.half w hst with h | ⟨m, rfl, -⟩
    · rw [hs] at h
      cases h
    · exact ⟨nofun, nofun⟩
  · exact w.inner hst

theorem fresh (hx : ¬ Pub 0 (insert s' S) x) : s'.lock x = optikInit ∧ s'.state x = false := by
  have hx : ¬ Pub 0 S x := fun h => hx (h.insert s')
  rcases a.unpublished w hx with h | ⟨m, -, h⟩
  · rw [LockedSkipHeap.lock, LockedSkipHeap.state, h]
    exact w.fresh hx
  · exact h

/-- **The writes keep the skip list well-formed.** -/
theorem wf (hc : Clear s H X) : Wf levelmax (insert s' S) s' where
  listed := a.listed w
  versioned := a.versioned w
  alloc s₀ h0 := by
    intro i x hl
    rcases Set.mem_insert_iff.mp h0 with rfl | h0
    · exact (a.listed w i).alloc x ((a.listed w i).pub_lnk hl)
    · exact w.alloc s₀ h0 hl
  clean hu s₀ h0 hl he := by
    rcases Set.mem_insert_iff.mp h0 with rfl | h0
    · rfl
    · exact a.clean w hu s₀ h0 hl he
  down hp hj := a.down w hp hj
  lnk hp hd := a.lnk w hp hd
  up hp hx := a.up w hp hx
  standing s₀ h0 := by
    rcases Set.mem_insert_iff.mp h0 with rfl | h0
    · exact a.standing w hc
    · exact w.standing s₀ h0
  tall hp hh ht := a.tall w hp hh ht
  full hs hi := a.full w hs hi
  state hd := a.state w hd
  inner hs := a.inner w hs
  fresh hx := a.fresh w hx
  dels s₀ h0 := by
    intro x hd
    rcases Set.mem_insert_iff.mp h0 with rfl | h0
    · exact hd
    · exact a.dels w (w.dels s₀ h0 hd)
  head_top := by
    rw [(a.node w (w.pub_head 0)).2.2.1]
    exact w.head_top

/-! ### What other threads rely on -/

theorem above {u : T} {m : ℕ} (hu : u ≠ t) (hn : ¬ Pub i S (.node u m)) :
    s'.next (.node u m) i = s.next (.node u m) i ∧ ¬ Pub i (insert s' S) (.node u m) := by
  refine ⟨?_, fun hp => ?_⟩
  · cases a with
    | skip => rfl
    | free => rfl
    | @alloc n =>
      refine congrArg (fun n => n.next i) (s.mem_allocate_of_ne _ n t ?_)
      rintro ⟨⟩
      exact hu rfl
    | take => exact next_setLock ..
    | unlock => exact next_setLock ..
    | delete => exact next_setLock ..
    | fill =>
      refine next_setNext_of_ne s _ _ _ _ i (Or.inl ?_)
      rintro ⟨⟩
      exact hu rfl
    | valid => exact next_setState ..
    | link _ _ hl =>
      refine next_setNext_of_ne s _ _ _ _ i (not_and_or.mp ?_)
      rintro ⟨rfl, rfl⟩
      exact hn (w.pub_lnk hl)
    | unlink _ _ hl =>
      refine next_setNext_of_ne s _ _ _ _ i (not_and_or.mp ?_)
      rintro ⟨rfl, rfl⟩
      exact hn (w.pub_lnk hl)
  · rcases a.pub_back w hp with h | h
    · exact hn h
    · rcases a.lnk_back w h with h1 | ⟨-, -, -, -, -, m', he⟩
      · exact hn (w.pub_lnk h1)
      · cases he
        exact hu rfl

/-- **What the step leaves alone.** -/
theorem keeps : Keeps t H X S s s' where
  key hx := (a.node w hx).1
  val hx := (a.node w hx).2.1
  top hx := (a.node w hx).2.2.1
  dels hd := a.dels w hd
  states hx := (a.node w hx).2.2.2
  locked {x} hx hl := by
    refine ⟨?_, fun i hi => (a.next_eq w hi).resolve_right fun h => hx h.1⟩
    rcases a.word w (w.pub_of_locked hl) with h | ⟨h, -⟩ | ⟨h, -⟩ | ⟨h, -⟩
    · exact h
    · rw [hl.locked] at h
      cases h
    · rw [hl.locked] at h
      cases h
    · exact absurd h hx
  still hd hp := (a.next_eq w hp).resolve_right fun h => h.2.1.ne_deleted hd
  gone hd hl := by
    refine (a.lnk_back w hl).resolve_right ?_
    rintro ⟨-, h1, h2, -⟩
    exact w.not_deleted h2 (h1 ▸ hd)
  kept hx hl := a.kept w hx hl
  others {u m} hu hn := by
    refine (a.unpublished w hn).resolve_right ?_
    rintro ⟨m', h, -⟩
    cases h
    exact hu rfl
  above hu hn := a.above w hu hn
  half {u m} hu hf := by
    refine (a.half w hf).resolve_right ?_
    rintro ⟨m', h, -⟩
    cases h
    exact hu rfl
  count := a.count w

/-- Nodes that were met and are unlinked show what they showed. -/
theorem hindsight (hW : W ⊆ S) (hh : Hind W s) : Hind (insert s' W) s' := by
  intro i
  refine (hh i).step fun x hx hl => ?_
  have hp : Pub i S x :=
    let ⟨s₀, h0, k, hk, hl⟩ := hx
    w.down ⟨s₀, hW h0, hl⟩ hk
  have hd' : s'.lock x = optikDeleted := by
    by_contra hd
    exact hl ⟨i, le_rfl, a.lnk w (hp.insert s') hd⟩
  have hd : s.lock x = optikDeleted := by
    by_contra hd
    -- the step deletes the node, and leaves it linked
    have hxl := w.lnk hp hd
    rcases a.word w (w.pub_zero hp) with h | ⟨-, -, h, -⟩ | ⟨h, -⟩ | ⟨-, h, h1, -⟩
    · exact hd (h ▸ hd')
    · exact h hd'
    · refine hl ⟨i, le_rfl, ?_⟩
      cases a.change w with
      | same _ hsame _ => exact ((hsame i).lnk (w.listed i) x).mpr hxl
      | link => exact absurd ((lock_setNext ..).symm.trans hd') hd
      | unlink => exact absurd ((lock_setNext ..).symm.trans hd') hd
    · have := unlock_unlocked h.locked h.ne_deleted
      rw [← h1, hd', optikDeleted_locked] at this
      cases this
  refine Prod.ext ((a.next_eq w hp).resolve_right fun h => h.2.1.ne_deleted hd) (propext ?_)
  exact iff_of_true (Or.inr hd') (Or.inr hd)

omit w in
/-- Only free locks are taken. -/
theorem holds (hx : x ∈ H') : x ∈ H ∨ optikIsLocked (s.lock x) = false := by
  cases a with
  | take _ hu =>
    rcases hx with rfl | hx
    · exact Or.inr hu
    · exact Or.inl hx
  | unlock => exact Or.inl hx.1
  | _ => exact Or.inl hx

omit w in
/-- Only nodes that are not locked are deleted. -/
theorem victims (hx : x ∈ X') : x ∈ X ∨ optikIsLocked (s.lock x) = false := by
  cases a with
  | delete _ hu =>
    obtain rfl := hx
    exact Or.inr hu
  | unlink _ _ _ _ _ _ _ _ hX' =>
    rcases hX' with rfl | ⟨rfl, -⟩
    · exact Or.inl hx
    · exact absurd hx (Set.notMem_empty x)
  | _ => exact Or.inl hx

/-- The thread goes on holding its locks. -/
theorem mine (h : Mine s H X) : Mine s' H' X' := by
  refine ⟨fun x hx => ?_, fun x hx => ?_, fun {p} hp {j x} hx hl hs => ?_⟩
  · by_cases hxH : x ∈ H
    · have hl := h.locked x hxH
      rcases a.word w (w.pub_of_locked hl) with h1 | ⟨h1, -⟩ | ⟨h1, -⟩ | ⟨-, -, -, h1, -⟩
      · exact ⟨h1 ▸ hl.locked, h1 ▸ hl.ne_deleted⟩
      · rw [hl.locked] at h1
        cases h1
      · rw [hl.locked] at h1
        cases h1
      · exact absurd hx h1
    · cases a with
      | @take y _ hu hd =>
        obtain rfl : x = y := hx.resolve_right hxH
        refine ⟨?_, ?_⟩ <;> rw [lock_setLock_self]
        · exact lock_locked hu
        · exact hd
      | unlock => exact absurd hx.1 hxH
      | _ => exact absurd hx hxH
  · by_cases hxX : x ∈ X
    · exact a.dels w (h.deleted x hxX)
    · cases a with
      | delete =>
        obtain rfl := hx
        exact lock_setLock_self ..
      | unlink _ _ _ _ _ _ _ _ hX' =>
        rcases hX' with rfl | ⟨rfl, -⟩
        · exact absurd hx hxX
        · exact absurd hx (Set.notMem_empty x)
      | _ => exact absurd hx hxX
  · rcases a.leans_back w hl with h1 | ⟨-, h1, -⟩
    · have hs := a.stands_back w h.clear h1 hs
      rcases a.holds hp with h2 | h2
      · exact h.clear h2 (fun h3 => hx (a.leans_mem w h3 hl)) h1 hs
      · rw [(w.locked_of_stands h1 hs).locked] at h2
        cases h2
    · exact hx h1

/-- So do the other threads. -/
theorem mine_other (h : Mine s H X) (h₁ : Mine s H₁ X₁) (hd : ∀ {x}, x ∈ H₁ → x ∉ H) :
    Mine s' H₁ X₁ := by
  refine ⟨fun x hx => ?_, fun x hx => a.dels w (h₁.deleted x hx), fun {p} hp {j x} hx hl hs => ?_⟩
  · have hl := h₁.locked x hx
    have he := ((a.keeps w).locked (hd hx) hl).1
    exact ⟨he ▸ hl.locked, he ▸ hl.ne_deleted⟩
  · rcases a.leans_back w hl with h1 | ⟨-, -, q, hq, -, hsq⟩
    · exact h₁.clear hp hx h1 (a.stands_back w h.clear h1 hs)
    · have w' := a.wf w h.clear
      obtain rfl := w'.next_inj hs.lnk hsq.lnk (w'.stander_ne_tail hs) (w'.stander_ne_tail hsq)
        (hs.next.trans hsq.next.symm)
      exact hd hp hq

/-- A linked node whose lock is taken is held by the thread or is its victim, or
it was held by another thread, or another's victim. -/
theorem held (hx : Lnk i s' x) (hl : optikIsLocked (s'.lock x) = true) :
    x ∈ H' ∪ X' ∨ x ∉ H ∪ X ∧ (∃ j, Lnk j s x) ∧ optikIsLocked (s.lock x) = true := by
  have hold : ∃ j, Lnk j s x := by
    rcases a.lnk_back w hx with h | ⟨h1, h2, h3, h4, -⟩
    · exact ⟨i, h⟩
    · cases i with
      | zero =>
        rw [h2, (w.fresh h1).1, optikInit_unlocked] at hl
        cases hl
      | succ i => exact ⟨0, w.lnk (h4 0 i.succ_pos) (w.not_deleted h3)⟩
  have hp := w.pub_zero (w.pub_lnk hold.choose_spec)
  have hH : x ∈ H → x ∈ H' := fun hxH => by
    cases a with
    | take => exact Or.inr hxH
    | @unlock y _ _ hly =>
      refine ⟨hxH, fun he => ?_⟩
      obtain rfl : x = y := he
      rw [lock_setLock_self, unlock_unlocked hly.locked hly.ne_deleted] at hl
      cases hl
    | _ => exact hxH
  have hX : x ∈ X → x ∈ X' := fun hxX => by
    cases a.change w with
    | same h => exact h hxX
    | link => exact hxX
    | @unlink p c k _ _ _ _ _ _ hX _ _ hX' hlnk =>
      rcases hX' with rfl | ⟨-, hgone⟩
      · exact hxX
      · obtain rfl : x = c := by rwa [hX] at hxX
        have h1 := (hlnk i x).mp hx
        exact absurd h1.1 (hgone i fun he => h1.2 ⟨he, rfl⟩)
  by_cases hm : x ∈ H ∪ X
  · exact Or.inl (hm.imp hH hX)
  · rcases a.word w hp with h | ⟨-, -, -, h⟩ | ⟨-, -, -, h⟩ | ⟨-, h, h1, -⟩
    · exact Or.inr ⟨hm, hold, h ▸ hl⟩
    · exact Or.inl (Or.inl h)
    · exact Or.inl (Or.inr h)
    · rw [h1, unlock_unlocked h.locked h.ne_deleted] at hl
      cases hl

/-! ### The map -/

/-- The map changes only where a node becomes valid or is deleted. -/
theorem absMap_eq (hst : ∀ y, Pub 0 S y → s'.state y = s.state y)
    (hd : ∀ y, s'.lock y = optikDeleted → s.lock y = optikDeleted) : absMap s' = absMap s := by
  have hdead : ∀ y, Lnk 0 s y →
      ((view T K V).dead (s'.mem y) ↔ (view T K V).dead (s.mem y)) := fun y hy =>
    or_congr (iff_of_eq (congrArg (· = false) (hst y (w.pub_lnk hy)))) ⟨hd y, a.dels w⟩
  cases a.change w with
  | same _ h _ => exact (h 0).absMap (w.listed 0) hdead
  | @link p m k _ _ hl hn _ _ hnq h1 _ _ _ hf =>
    have hsw := setNext_swing s p k (.node t m)
    by_cases hk : k = 0
    · subst hk
      exact hsw.level.link_dead_absMap (w.listed 0) hl (w.ne_tail_of_lt h1) hn hnq (Or.inl hf)
    · exact (hsw.same (Ne.symm hk)).absMap (w.listed 0) hdead
  | @unlink p c k _ _ _ hl hpc hdc _ hpt hct =>
    have hsw := setNext_swing s p k (s.next c k)
    by_cases hk : k = 0
    · subst hk
      exact hsw.level.unlink_dead_absMap (w.listed 0) hl hpt hpc hct (Or.inr hdc)
    · exact (hsw.same (Ne.symm hk)).absMap (w.listed 0) hdead

end

end Act

section map

variable (w : Wf levelmax S s)

include w

/-- A deleted node loses its key. -/
theorem delete_absMap (hx : Pub 0 S x) (hd : s.lock x ≠ optikDeleted) (hst : s.state x = true) :
    absMap s (s.key x) = some (s.val x) ∧
      absMap (s.setLock x optikDeleted) = Function.update (absMap s) (s.key x) none := by
  have hl : ((view T K V).level 0).Live s x :=
    ⟨w.lnk hx hd, fun h => h.elim (fun h => absurd (hst.symm.trans h) nofun) hd, w.inner hst⟩
  refine ⟨(w.listed 0).absMap_past w.mem hl, ?_⟩
  refine (setLock_same S s x optikDeleted 0).kill (w.listed 0) hl (Or.inr (lock_setLock_self ..)) ?_
  intro y _ hy
  rw [mem_setLock_of_ne s x y _ hy]

/-- A valid node gains its key. -/
theorem valid_absMap (hx : Pub 0 S x) (hst : s.state x = false) (hin : x ≠ .head ∧ x ≠ .tail) :
    absMap s (s.key x) = none ∧
      absMap (s.setState x) = Function.update (absMap s) (s.key x) (some (s.val x)) := by
  have hd := w.not_deleted hst
  have hl := w.lnk hx hd
  refine ⟨(w.listed 0).absMap_of_dead hl (Or.inl hst), ?_⟩
  refine (setState_same S s x 0).wake (w.listed 0) hl hin (Or.inl hst) ?_ ?_
  · rintro (h | h)
    · exact absurd ((state_setState_self s x).symm.trans h) nofun
    · exact hd ((lock_setState ..).symm.trans h)
  · intro y _ hy
    rw [show (s.setState x).mem y = s.mem y from s.mem_modify_of_ne x y _ hy]

/-- A valid node that is not deleted holds its key. -/
theorem absMap_some (hx : Pub 0 S x) (hd : s.lock x ≠ optikDeleted) (hst : s.state x = true) :
    absMap s (s.key x) = some (s.val x) := (delete_absMap w hx hd hst).1

end map

/-! ### What a search learns -/

/-- The key was absent at some moment of the window. -/
abbrev NoneSeen (W : Set (LockedSkipHeap T K V)) (k : K) : Prop :=
  ((view T K V).level 0).NoneSeen W k

/-- At some moment of the window, `q` followed the last node of level `i` to the
left of the key. -/
def Seen (i : ℕ) (W : Set (LockedSkipHeap T K V)) (k : K) (q : Ptr T) : Prop :=
  ∃ s ∈ W, ∃ p, Lnk i s p ∧ s.key p < k ∧ s.next p i = q

/-- The version `v` of `p` has been read, and then its pointer `q`. -/
def Version (i : ℕ) (S : Set (LockedSkipHeap T K V)) (p : Ptr T) (v : OptikT) (q : Ptr T) : Prop :=
  ∃ s ∈ S, (optik T K V).Since s p v ∧ (s.lock p ≠ optikDeleted → Lnk i s p) ∧ s.next p i = q

theorem Seen.insert {k : K} {q : Ptr T} (h : Seen i W k q) (s' : LockedSkipHeap T K V) :
    Seen i (insert s' W) k q :=
  let ⟨s, hs, h⟩ := h
  ⟨s, Set.mem_insert_of_mem _ hs, h⟩

theorem Version.insert {v : OptikT} {q : Ptr T} (h : Version i S p v q) (s' : LockedSkipHeap T K V) :
    Version i (insert s' S) p v q :=
  let ⟨s, hs, h⟩ := h
  ⟨s, Set.mem_insert_of_mem _ hs, h⟩

section learn

variable {k : K} {q y n : Ptr T} (w : Wf levelmax S s)

include w

/-- **A pointer is as it was read when the word is as it was read before.** -/
theorem Version.next_eq {v : OptikT} (h : Version i S p v q) (hu : optikIsLocked v = false)
    (he : s.lock p = v) : s.next p i = q := by
  obtain ⟨s₀, h0, ⟨ha, hle⟩, hl, rfl⟩ := h
  have hmono : sections (s₀.lock p) ≤ sections (s.lock p) := w.versioned.mono s₀ h0 p ha
  have hd : s₀.lock p ≠ optikDeleted := fun hd => by
    rw [w.dels s₀ h0 hd] at he
    rw [← he, optikDeleted_locked] at hu
    cases hu
  rw [he] at hmono
  exact (w.clean (he ▸ hu) s₀ h0 (hl hd) (by rw [he]; exact le_antisymm hmono hle)).symm

/-- No other node of a key is linked anywhere while one of them is at level 0. -/
theorem alone {s₀ : LockedSkipHeap T K V} (h0 : s₀ ∈ S) (hx : LnkFrom 0 s₀ x) (hy : Lnk 0 s₀ y)
    (he : s₀.key x = s₀.key y) : x = y := by
  have hsort := (w.listed 0).past s₀ h0
  by_cases hl : Lnk 0 s₀ x
  · exact hsort.inj hl hy he
  · -- otherwise the key would lie between the stander and its successor
    obtain ⟨p, -, hs⟩ := w.standing s₀ h0 ⟨hx, hl⟩
    have hpt : p ≠ .tail := by
      rintro rfl
      have h1 : s₀.key y ≤ s₀.key .tail := hsort.le_tail hy
      exact absurd (hs.lt.trans_eq he) (not_lt.mpr h1)
    have hpast := hs.past
    rw [← hs.next] at hpast
    exact absurd he.symm (hsort.absent hs.lnk hpt hs.lt hpast hy)

theorem pub_of_met (hW : W ⊆ S) (hx : Met (LnkFrom i) W x) : Pub i S x :=
  let ⟨s₀, h0, _, hk, hl⟩ := hx
  w.down ⟨s₀, hW h0, hl⟩ hk

omit w in
theorem met_down (hx : Met (LnkFrom i) W x) (hj : j ≤ i) : Met (LnkFrom j) W x :=
  let ⟨s₀, h0, k, hk, hl⟩ := hx
  ⟨s₀, h0, k, hj.trans hk, hl⟩

variable (hW : W ⊆ S)

include hW

theorem past_key {s₀ : LockedSkipHeap T K V} (h0 : s₀ ∈ W) (hl : Lnk i s₀ x) : s₀.key x = s.key x :=
  ((w.listed i).const s₀ (hW h0) x hl).1

/-- What a search reads from a node to the left of the key. -/
theorem seen_next (hh : Hind W s) (hx : Met (LnkFrom i) W x) (hk : s.key x < k) :
    Seen i W k (s.next x i) := by
  obtain ⟨s₀, h0, ⟨h, hi, hl⟩, hv⟩ := hh i x hx
  have hn : s₀.next x i = s.next x i := congrArg Prod.fst hv
  have hkx := past_key w hW h0 hl
  by_cases hli : Lnk i s₀ x
  · exact ⟨s₀, h0, x, hli, hkx.trans_lt hk, hn⟩
  · obtain ⟨p, -, hs⟩ := w.standing s₀ (hW h0) ⟨⟨h, hi, hl⟩, hli⟩
    exact ⟨s₀, h0, p, hs.lnk, hs.lt.trans (hkx.trans_lt hk), hs.next.trans hn⟩

theorem Seen.met (h : Seen i W k q) : Met (Lnk i) W q := by
  obtain ⟨s₀, h0, p, hl, hk, rfl⟩ := h
  refine ⟨s₀, h0, hl.next ?_⟩
  rw [past_key w hW h0 hl] at hk
  exact w.ne_tail_of_lt hk

/-- A search that has passed the key at level 0 saw a moment without it. -/
theorem Seen.noneSeen (h : Seen 0 W k q) (hk : k < s.key q) : NoneSeen W k := by
  obtain ⟨s₀, h0, p, hl, hkp, rfl⟩ := h
  rw [past_key w hW h0 hl] at hkp
  exact (w.listed 0).noneSeen_of_next hW h0 hl hkp hk

/-- A search comes to a node of the key that is linked all the while. -/
theorem Seen.eq (h : Seen i W k q) (hq : k ≤ s.key q) (hn : ∀ s₀ ∈ W, Lnk i s₀ n)
    (hk : s.key n = k) : q = n := by
  have hm := h.met w hW
  obtain ⟨s₀, h0, p, hl, hkp, rfl⟩ := h
  have hsort := (w.listed i).past s₀ (hW h0)
  have hkn := past_key w hW h0 (hn s₀ h0)
  have hpt : p ≠ .tail := by
    rw [past_key w hW h0 hl] at hkp
    exact w.ne_tail_of_lt hkp
  have hlq : Lnk i s₀ (s₀.next p i) := hl.next hpt
  refine hsort.inj hlq (hn s₀ h0) (le_antisymm ?_ ?_)
  · refine (hsort.le_or_next_le hl hpt (hn s₀ h0)).resolve_left (not_le.mpr ?_)
    exact hkp.trans_eq (hkn.trans hk).symm
  · show s₀.key n ≤ s₀.key (s₀.next p i)
    rw [hkn, hk, past_key w hW h0 hlq]
    exact hq

/-- A search that meets a dead node saw a moment without its key. -/
theorem noneSeen_of_dead (hh : Hind W s) (hx : Met (LnkFrom 0) W x)
    (hd : s.state x = false ∨ s.lock x = optikDeleted) : NoneSeen W (s.key x) := by
  obtain ⟨s₀, h0, hl, hv⟩ := hh 0 x hx
  refine ⟨s₀, h0, mapOf_eq_none.mpr fun y hy he => hy.2.1 ?_⟩
  have hkx : s₀.key x = s.key x :=
    let ⟨_, _, hl⟩ := hl
    past_key w hW h0 hl
  obtain rfl := alone w (hW h0) hl hy.1 (hkx.trans he.symm)
  have hdead : (view T K V).dead (s₀.mem x) = (view T K V).dead (s.mem x) := congrArg Prod.snd hv
  exact hdead.mpr hd

end learn

/-! ### The empty skip list -/

theorem lnk_empty [Zero V] (i : ℕ) (x : Ptr T) :
    Lnk i (empty levelmax : LockedSkipHeap T K V) x ↔ x = .head ∨ x = .tail :=
  NodeView.lnk_empty (D := (view T K V).level i) rfl x

theorem pub_empty [Zero V] (i : ℕ) (x : Ptr T) :
    Pub i {(empty levelmax : LockedSkipHeap T K V)} x ↔ x = .head ∨ x = .tail :=
  NodeView.pub_empty (D := (view T K V).level i) rfl x

theorem Wf.initial [Nontrivial K] [Zero V] (levelmax : ℕ) :
    Wf levelmax {(empty levelmax : LockedSkipHeap T K V)} (empty levelmax) where
  listed i := .initial rfl rfl rfl
  versioned := .initial _
  alloc := by
    rintro s₀ rfl i x hl
    exact ((lnk_empty i x).mp hl).imp_right Or.inl
  clean := by
    rintro i x - s₀ rfl - -
    rfl
  down hx _ := by
    rw [pub_empty] at hx ⊢
    exact hx
  lnk hx _ := by
    rw [pub_empty] at hx
    rwa [lnk_empty]
  up {i x} hx ht := by
    obtain rfl := ((pub_empty i x).mp hx).resolve_right ht
    exact ⟨(pub_empty i _).mpr (Or.inr rfl), bot_lt_top⟩
  standing := by
    rintro s₀ rfl j x ⟨⟨h, -, hl⟩, hn⟩
    rw [lnk_empty] at hl hn
    exact absurd hl hn
  tall {i x} hx hh ht := by
    rcases (pub_empty i x).mp hx with rfl | rfl
    · exact absurd rfl hh
    · exact absurd rfl ht
  full {i x} hs := by cases x <;> cases hs
  state {x} hd := by cases x <;> exact absurd (show optikInit = optikDeleted from hd) (by decide)
  inner {x} hs := by cases x <;> cases hs
  fresh {x} _ := by cases x <;> exact ⟨rfl, rfl⟩
  dels := by
    rintro s₀ rfl x hd
    exact hd
  head_top := rfl

theorem empty_absMap [Nontrivial K] [Zero V] (levelmax : ℕ) :
    absMap (empty levelmax : LockedSkipHeap T K V) = fun _ => none :=
  NodeView.absMap_empty rfl

end LockedSkipHeap

end Ascylib
