/-
# What the lists with locks and with OPTIK words free

`remove` gives the node back that it has unlinked, and it does so itself, after
its one store to `pred->next`: in the lazy list and Pugh's under the locks, in
the list with lock coupling between the two unlocks, in the OPTIK lists after
`optik_unlock`. An `insert` of the OPTIK lists that does not get the lock frees
its new node and allocates another.

Key definition: `NodeView.Books`.
Key theorem: `lists_reclaim`.
-/
import Ascylib.Concur.Reclaim
import Ascylib.LinkedListCoupling
import Ascylib.LinkedListLazy
import Ascylib.LinkedListOptik
import Ascylib.LinkedListOptikGL
import Ascylib.PughPointers

set_option linter.unusedSectionVars false

namespace Ascylib

open Concur Chain

/-! ### What a step books -/

namespace NodeView

variable {T K V N L σ : Type*} [DecidableEq T] [LinearOrder K] [BoundedOrder K]

/-- What the allocator sees of a list. -/
def use (D : NodeView N T K V) (nodes : σ → Memory T N) : NodeUse σ (Ptr T) where
  used s x := (nodes s).Allocated x
  lnk s x := D.Lnk (nodes s) x
  freed s := (nodes s).freed

/-- The entry of a step from `s` to `s'`, which allocates at most the node that
is in hand after it. -/
def Books (D : NodeView N T K V) (s : Memory T N) (ys : List (Ptr T)) (h : Option (Ptr T))
    (s' : Memory T N) (ys' : List (Ptr T)) (h' : Option (Ptr T)) : Prop :=
  Ledger.Entry s.Allocated (D.Lnk s) s.freed ys h s'.Allocated (D.Lnk s') s'.freed ys' h' ∧
    ∀ x, s'.Allocated x → s.Allocated x ∨ h' = some x

variable {D : NodeView N T K V} {S : Set (Memory T N)} {s s' : Memory T N} {p c x : Ptr T}
  {ys : List (Ptr T)} {h : Option (Ptr T)}

theorem allocated_congr (hc : s'.count = s.count) (x : Ptr T) : s'.Allocated x ↔ s.Allocated x := by
  simp only [Memory.Allocated, hc]

theorem Books.read : D.Books s ys h s ys h :=
  ⟨.none (fun _ hx => hx) fun _ => Iff.rfl, fun _ => Or.inl⟩

/-- A write that changes no link. -/
theorem Books.same (w : D.Listed S s) (hs : D.Same S s s') (hc : s'.count = s.count)
    (hf : s'.freed = s.freed) : D.Books s ys h s' ys h := by
  refine ⟨?_, fun x hx => Or.inl ((allocated_congr hc x).mp hx)⟩
  rw [hf]
  exact .none (fun x hx => (allocated_congr hc x).mpr hx) (hs.lnk w)

theorem Books.allocate (w : D.Listed S s) (t : T) (n : N) :
    D.Books s ys none (s.allocate t n).1 ys (some (s.allocate t n).2) := by
  obtain ⟨hsame, -⟩ := w.allocate t n
  refine ⟨.take _ (s.not_allocated_next t) (Or.inr (Or.inr ⟨t, _, rfl, s.count_allocate_self n t⟩))
    (fun x hx => hx.mono (s.count_le_allocate n t)) fun x => hsame.lnk w x, fun x hx => ?_⟩
  exact (s.allocated_of_allocate x n t hx).imp_right fun h => congrArg some h.symm

theorem Books.link (hl : ∀ y, D.Lnk s' y ↔ D.Lnk s y ∨ y = x) (hc : s'.count = s.count)
    (hf : s'.freed = s.freed) : D.Books s ys (some x) s' ys none := by
  refine ⟨?_, fun y hy => Or.inl ((allocated_congr hc y).mp hy)⟩
  rw [hf]
  exact .link x (fun y hy => (allocated_congr hc y).mpr hy) hl

theorem Books.unlink (hx : D.Lnk s x) (hl : ∀ y, D.Lnk s' y ↔ D.Lnk s y ∧ y ≠ x)
    (hc : s'.count = s.count) (hf : s'.freed = s.freed) : D.Books s [] h s' [x] h := by
  refine ⟨?_, fun y hy => Or.inl ((allocated_congr hc y).mp hy)⟩
  rw [hf]
  refine .unlink [x] (fun y hy => (allocated_congr hc y).mpr hy) (List.nodup_singleton x) ?_ ?_
  · intro y hy
    rwa [List.mem_singleton.mp hy]
  · intro y
    rw [hl, List.mem_singleton]

theorem Books.free : D.Books s (x :: ys) h { s with freed := x :: s.freed } ys h :=
  ⟨.free x (fun _ hy => hy) fun _ => Iff.rfl, fun _ => Or.inl⟩

theorem Books.discard : D.Books s ys (some x) { s with freed := x :: s.freed } ys none :=
  ⟨.discard x (fun _ hy => hy) fun _ => Iff.rfl, fun _ => Or.inl⟩

variable {Op Res ι : Type*} {P : Program T Op Res σ L ι} {nodes : σ → Memory T N}
  {ok : Trace T Op Res σ L → Config T Op σ L → Event T Op Res → Config T Op σ L → Prop}

/-- A list that begins with its sentinels, and whose steps book an entry each. -/
def accounts (debt : L → List (Ptr T)) (hand : L → Option (Ptr T))
    (hstart : ∀ op, debt (P.start op) = [] ∧ hand (P.start op) = none)
    (hret : ∀ {l r}, P.result l = some r → debt l = [] ∧ hand l = none)
    (hinit : D.succ (nodes P.init) .head = .tail ∧ (nodes P.init).freed = [] ∧
      ∀ u, (nodes P.init).count u = 0)
    (hlisted : ∀ {es c}, P.RunIf ok es c → D.Listed (nodes '' P.seen es) (nodes c.shared))
    (hstep : ∀ {es c t op l i s' l'}, P.RunIf ok es c → c.threads t = some (op, l) →
      P.result l = none → P.step i t c.shared op l = some (s', l') →
      ok es c (.tau t) ⟨s', Function.update c.threads t (some (op, l'))⟩ →
      D.Books (nodes c.shared) (debt l) (hand l) (nodes s') (debt l') (hand l')) :
    Accounts P ok (D.use nodes) where
  debt := debt
  hand := hand
  start := hstart
  ret := hret
  freed_init := hinit.2.1
  used_init x hx := by
    refine (lnk_empty hinit.1 x).mpr (hx.imp_right fun h => h.resolve_right ?_)
    rintro ⟨u, i, -, hi⟩
    rw [hinit.2.2 u] at hi
    exact Nat.not_lt_zero i hi
  met_used hr := by
    rintro ⟨s, hs, hx⟩
    exact (hlisted hr).alloc _ ⟨nodes s, ⟨s, hs, rfl⟩, hx⟩
  step := hstep

end NodeView

variable {T K V : Type*} [DecidableEq T] [LinearOrder K] [BoundedOrder K] [Zero V]

/-! ### The lazy list -/

namespace LinkedListLazy

open MarkedList

/-- The unlinked node that a call is going to free. -/
def debt : Pc T V → List (Ptr T)
  | .removeFree _ curr _ => [curr]
  | _ => []

/-- A node that a call has allocated and not linked. -/
def hand : Pc T V → Option (Ptr T)
  | .insertStore _ newnode => some newnode
  | _ => none

variable {t : T} {S W : Set (MarkedHeap T K V)} {s s' : MarkedHeap T K V} {op : Call K V}
  {l l' : Pc T V}

theorem books (w : Wf S s) (ht : op.key < ⊤) (h : At t S W s op l) (hr : result l = none)
    (hst : step t s op l = some (s', l')) :
    (view T K V).Books s (debt l) (hand l) s' (debt l') (hand l') := by
  have hacquire : ∀ {x : Ptr T} {l₁ : Pc T V}, debt l = [] → hand l = none → debt l₁ = [] →
      hand l₁ = none → (s.acquire t x).map (fun s => (s, l₁)) = some (s', l') →
      (view T K V).Books s (debt l) (hand l) s' (debt l') (hand l') := by
    intro x l₁ h1 h2 h3 h4 h5
    obtain ⟨s₁, h6, h7⟩ := Option.map_eq_some_iff.mp h5
    obtain ⟨-, rfl⟩ := MarkedHeap.acquire_eq_some h6
    cases h7
    rw [h1, h2, h3, h4]
    exact .same w.listed (lock_same S s x _) rfl rfl
  cases l
  case insertLock p c | removeLockPred p c | removeLockCurr p c =>
    exact hacquire rfl rfl rfl rfl hst
  case insertAlloc p c =>
    obtain ⟨⟨k, v, rfl⟩, -⟩ := h
    cases hst
    exact .allocate w.listed t _
  case insertStore p n =>
    obtain ⟨k, v, c, rfl, h2, h3, h4, h5, h6, rfl, h8⟩ := h
    cases hst
    exact .link (link_lnk w (w.lnk p h2.1 h6) h8 h3 h5) rfl rfl
  case insertUnlock p r =>
    cases hst
    rcases r with _ | ⟨⟨⟩⟩ <;> exact .same w.listed (lock_same S s p none) rfl rfl
  case removeMark p c n r =>
    cases hst
    exact .same w.listed (mark_same S s c) rfl rfl
  case removeStore p c n r =>
    obtain ⟨h1, h2, -, h4, rfl, h6⟩ := h
    cases hst
    have hct : c ≠ .tail := w.listed.ne_tail_of_lt (show s.key c < ⊤ by rw [h1.eq]; exact ht)
    exact .unlink h6 (unlink_lnk w (w.lnk p h1.pred.1 h2) h4 (w.listed.ne_tail_of_lt h1.lt) hct) rfl
      rfl
  case removeFree p c r =>
    cases hst
    exact .free
  case removeUnlockCurr p c r =>
    cases hst
    exact .same w.listed (lock_same S s c none) rfl rfl
  case removeUnlockPred p r =>
    cases hst
    rcases r with _ | v <;> exact .same w.listed (lock_same S s p none) rfl rfl
  case done => cases hr
  case unchanged => cases hr
  all_goals
    cases hst
    first
      | exact .read
      | split_ifs <;> exact .read

variable [Nontrivial K]

def accounts : Accounts (program T K V) (fun _ _ _ _ => True) ((view T K V).use id) :=
  NodeView.accounts debt hand (fun op => by cases op <;> exact ⟨rfl, rfl⟩)
    (fun {l r} hres => by cases l <;> cases hres <;> exact ⟨rfl, rfl⟩) ⟨rfl, rfl, fun _ => rfl⟩
    (fun hr => by rw [Set.image_id]; exact (outline.holds hr).glob.listed)
    fun {es c t op l i s' l'} hr ht hres hstep _ => by
      obtain ⟨-, -, hc, hat⟩ := (outline.holds hr).loc t op l ht
      exact books (outline.holds hr).glob hc.2.1 hat hres hstep

end LinkedListLazy

/-! ### Pugh's list -/

namespace LinkedListPugh

open LockedList

/-- The unlinked node that a call is going to free. -/
def debt : Pc T V → List (Ptr T)
  | .removeBack _ right _ => [right]
  | .removeUnlockRight _ right _ => [right]
  | .removeFree _ right _ => [right]
  | _ => []

/-- A node that a call has allocated and not linked. -/
def hand : Pc T V → Option (Ptr T)
  | .insertStore _ n => some n
  | _ => none

variable {t : T} {S W : Set (LockedHeap T K V)} {s s' : LockedHeap T K V} {op : Call K V}
  {l l' : Pc T V}

theorem books (w : Wf S s) (ht : op.key < ⊤) (h : Place t S W s op l)
    (hr : result l = none) (hst : step t s op l = some (s', l')) :
    (view T K V).Books s (debt l) (hand l) s' (debt l') (hand l') := by
  have hacquire : ∀ {x : Ptr T} {l₁ : Pc T V}, debt l = [] → hand l = none → debt l₁ = [] →
      hand l₁ = none → (s.acquire t x).map (fun s => (s, l₁)) = some (s', l') →
      (view T K V).Books s (debt l) (hand l) s' (debt l') (hand l') := by
    intro x l₁ h1 h2 h3 h4 h5
    obtain ⟨s₁, h6, h7⟩ := Option.map_eq_some_iff.mp h5
    obtain ⟨-, rfl⟩ := LockedHeap.acquire_eq_some h6
    cases h7
    rw [h1, h2, h3, h4]
    exact .same w.listed (lock_same S s x _) rfl rfl
  cases l
  case strongLock p | removeLock p c => exact hacquire rfl rfl rfl rfl hst
  case strongUnlock p c =>
    cases hst
    exact .same w.listed (lock_same S s p none) rfl rfl
  case rightEq p c =>
    cases hst
    rcases op with k | ⟨k, v⟩ | k <;> unfold found <;> split <;> exact .read
  case insertAlloc p c =>
    obtain ⟨k, v, rfl, -⟩ := h nofun
    cases hst
    exact .allocate w.listed t _
  case insertStore p n =>
    obtain ⟨k, v, c, rfl, h2, h3, h4⟩ := h nofun
    cases hst
    obtain rfl := h2.next
    exact .link (link_lnk w h2.lnk h4 h2.lt h3) rfl rfl
  case insertUnlock p r =>
    cases hst
    cases r <;> exact .same w.listed (lock_same S s p none) rfl rfl
  case removeStore p c n r =>
    obtain ⟨k, rfl, h2, rfl, h4, -, rfl⟩ := h nofun
    cases hst
    have hpt := w.listed.ne_tail_of_lt h2.lt
    exact .unlink (h2.next ▸ h2.lnk.next hpt)
      (unlink_lnk w h2.lnk h2.next hpt (w.listed.ne_tail_of_lt ht)) rfl rfl
  case removeBack p c r =>
    obtain ⟨-, -, -, h4, -⟩ := h nofun
    cases hst
    exact .same w.listed (back_same h4 p) rfl rfl
  case removeUnlockRight p c r =>
    cases hst
    exact .same w.listed (lock_same S s c none) rfl rfl
  case removeFree p c r =>
    cases hst
    exact .free
  case removeUnlockLeft p r =>
    cases hst
    cases r <;> exact .same w.listed (lock_same S s p none) rfl rfl
  case done => cases hr
  case unchanged => cases hr
  all_goals
    cases hst
    first
      | exact .read
      | split_ifs <;> exact .read

theorem booksStrong (w : Wf S s) (ht : op.key < ⊤) (h : Place t S W s op l)
    (hr : result l = none) (hst : stepStrong t s op l = some (s', l')) :
    (view T K V).Books s (debt l) (hand l) s' (debt l') (hand l') := by
  cases l
  case weakLeftLt p c =>
    cases hst
    split_ifs <;> exact .read
  all_goals exact books w ht h hr (show step t s op _ = _ from hst)

variable [Nontrivial K]

def accounts (roFail : Bool) :
    Accounts (pughList T K V roFail) (fun _ _ _ _ => True) ((view T K V).use id) :=
  NodeView.accounts debt hand (fun op => by cases op <;> exact ⟨rfl, rfl⟩)
    (fun {l r} hres => by cases l <;> cases hres <;> exact ⟨rfl, rfl⟩) ⟨rfl, rfl, fun _ => rfl⟩
    (fun hr => by rw [Set.image_id]; exact ((pointers roFail).holds hr).glob.1.listed)
    fun {es c t op l i s' l'} hr ht hres hstep _ => by
      obtain ⟨-, -, hc, hat⟩ := ((pointers roFail).holds hr).loc t op l ht
      have hw := ((pointers roFail).holds hr).glob.1
      cases roFail
      · exact booksStrong hw hc.2 hat hres hstep
      · exact books hw hc.2 hat hres hstep

end LinkedListPugh

/-! ### The list with lock coupling -/

namespace LinkedListCoupling

/-- The unlinked node that a call is going to free. -/
def debt (l : Pc T V) : List (Ptr T) := (removed l).toList

/-- A node that a call has allocated and not linked. -/
def hand : Pc T V → Option (Ptr T)
  | .insertStore _ _ newnode => some newnode
  | _ => none

variable {t : T} {S : Set (MarkedHeap T K V)} {s s' : MarkedHeap T K V} {op : Call K V}
  {l l' : Pc T V}

theorem books (w : Wf S s) (ht : op.key < ⊤) (h : At t S s op l) (hr : result l = none)
    (hst : step t s op l = some (s', l')) :
    (view T K V).Books s (debt l) (hand l) s' (debt l') (hand l') := by
  have hacquire : ∀ {x : Ptr T} {l₁ : Pc T V}, debt l = [] → hand l = none → debt l₁ = [] →
      hand l₁ = none → (s.acquire t x).map (fun s => (s, l₁)) = some (s', l') →
      (view T K V).Books s (debt l) (hand l) s' (debt l') (hand l') := by
    intro x l₁ h1 h2 h3 h4 h5
    obtain ⟨s₁, h6, h7⟩ := Option.map_eq_some_iff.mp h5
    obtain ⟨-, rfl⟩ := MarkedHeap.acquire_eq_some h6
    cases h7
    rw [h1, h2, h3, h4]
    exact .same w.listed (lock_same S s x _) rfl rfl
  cases l
  case lockHead | lockNext p c => exact hacquire rfl rfl rfl rfl hst
  case unlockPrev p c | removeUnlockCurr p r | unlockCurr p c r =>
    cases hst
    exact .same w.listed (lock_same S s p none) rfl rfl
  case removeUnlockNext p c r =>
    cases hst
    exact .same w.listed (lock_same S s c none) rfl rfl
  case unlockNext c r =>
    cases hst
    exact .same w.listed (lock_same S s c none) rfl rfl
  case eq p c =>
    cases hst
    rcases op with k | ⟨k, v⟩ | k <;> unfold found <;> split <;> exact .read
  case insertNew p c =>
    obtain ⟨⟨k, v, rfl⟩, -⟩ := h
    cases hst
    exact .allocate w.listed t _
  case insertStore p c n =>
    obtain ⟨k, v, rfl, h2, h3, h4⟩ := h
    cases hst
    obtain rfl := h2.next
    exact .link ((linking h2.left.lnk h4 h2.left.lt h3).lnk w.listed) rfl rfl
  case removeStore p c n r =>
    obtain ⟨-, h2, h3, -, rfl⟩ := h
    cases hst
    have hpt := w.listed.ne_tail_of_lt h2.left.lt
    have hct : c ≠ .tail := w.listed.ne_tail_of_lt (show s.key c < ⊤ by rw [h3]; exact ht)
    exact .unlink (h2.next ▸ h2.left.lnk.next hpt)
      ((setNext_swing s p _).unlink_lnk w.listed h2.left.lnk hpt h2.next hct) rfl rfl
  case removeDelete p c r =>
    cases hst
    exact .free
  case done => cases hr
  all_goals
    cases hst
    first
      | exact .read
      | split_ifs <;> exact .read

variable [Nontrivial K]

def accounts : Accounts (program T K V) (fun _ _ _ _ => True) ((view T K V).use id) :=
  NodeView.accounts debt hand (fun _ => ⟨rfl, rfl⟩)
    (fun {l r} hres => by cases l <;> cases hres; exact ⟨rfl, rfl⟩) ⟨rfl, rfl, fun _ => rfl⟩
    (fun hr => by rw [Set.image_id]; exact (outline.holds hr).glob.listed)
    fun {es c t op l i s' l'} hr ht hres hstep _ => by
      obtain ⟨hc, hat⟩ := (outline.holds hr).loc t op l ht
      exact books (outline.holds hr).glob hc.2.1 hat hres hstep

end LinkedListCoupling

/-! ### The list with an OPTIK word in each node -/

namespace LinkedListOptik

open OptikList

/-- The unlinked node that a call is going to free. -/
def debt : Pc T V → List (Ptr T)
  | .removeUnlock _ curr => [curr]
  | .removeUnlocked _ curr _ => [curr]
  | .removeVal curr => [curr]
  | .removeFree curr _ => [curr]
  | _ => []

/-- A node that a call has allocated and not linked. -/
def hand : Pc T V → Option (Ptr T)
  | .insertTry _ _ newnode => some newnode
  | .insertCas _ _ newnode => some newnode
  | .insertFree newnode => some newnode
  | .insertStore _ newnode => some newnode
  | _ => none

variable {t : T} {S W : Set (OptikHeap T K V)} {s s' : OptikHeap T K V} {op : Call K V}
  {l l' : Pc T V}

theorem books (w : Wf S s) (ht : op.key < ⊤) (h : At t S W s op l) (hr : result l = none)
    (hst : step t s op l = (s', l')) :
    (view T K V).Books s (debt l) (hand l) s' (debt l') (hand l') := by
  have hcas : ∀ {x : Ptr T} {v : OptikT} {n : Option (Ptr T)} {r : Bool} {s₁ : OptikHeap T K V},
      s.casLock x v (v + 1) = (r, s₁) → (view T K V).Books s [] n s₁ [] n := by
    intro x v n r s₁ hc
    cases r with
    | false =>
      rw [OptikHeap.casLock_false hc]
      exact .read
    | true =>
      obtain ⟨-, rfl⟩ := OptikHeap.casLock_true hc
      exact .same w.listed (setLock_same S s x _) rfl rfl
  cases l
  case insertAlloc p v c =>
    obtain ⟨⟨k, v, rfl⟩, -⟩ := h
    cases hst
    exact .allocate w.listed t _
  case insertTry p v n =>
    cases hst
    split_ifs <;> exact .read
  case insertCas p v n | removeCasPred p v c u n =>
    rcases hc : s.casLock p v (v + 1) with ⟨⟨⟩, s₁⟩
    all_goals
      simp only [step, hc] at hst
      cases hst
      exact hcas hc
  case removeCasCurr p c v n =>
    rcases hc : s.casLock c v (v + 1) with ⟨⟨⟩, s₁⟩
    all_goals
      simp only [step, hc] at hst
      cases hst
      exact hcas hc
  case insertFree n =>
    cases hst
    exact .discard
  case insertStore p n =>
    obtain ⟨k, v, rfl, h2, h3, h4, h5⟩ := h
    cases hst
    exact .link (link_lnk w h2 h5 h3 h4) rfl rfl
  case insertUnlocked p v =>
    cases hst
    exact .same w.listed (setLock_same S s p _) rfl rfl
  case removeRevert p =>
    cases hst
    exact .same w.listed (setLock_same S s p _) rfl rfl
  case removeStore p c n =>
    obtain ⟨-, h2, h3, h4, h5, h6, rfl⟩ := h
    cases hst
    have hct : c ≠ .tail := w.listed.ne_tail_of_lt (show s.key c < ⊤ by rw [h6]; exact ht)
    exact .unlink h3.lnk (unlink_lnk w h2 h4 (w.listed.ne_tail_of_lt h5) hct) rfl rfl
  case removeUnlocked p c v =>
    cases hst
    exact .same w.listed (setLock_same S s p _) rfl rfl
  case removeFree c r =>
    cases hst
    exact .free
  case done => cases hr
  case unchanged => cases hr
  all_goals
    cases hst
    first
      | exact .read
      | split_ifs <;> exact .read

variable [Nontrivial K]

def accounts : Accounts (program T K V) Few ((view T K V).use id) :=
  NodeView.accounts debt hand (fun op => by cases op <;> exact ⟨rfl, rfl⟩)
    (fun {l r} hres => by cases l <;> cases hres <;> exact ⟨rfl, rfl⟩) ⟨rfl, rfl, fun _ => rfl⟩
    (fun hr => by rw [Set.image_id]; exact (outline.holds hr).glob.1.listed)
    fun {es c t op l i s' l'} hr ht hres hstep _ => by
      obtain ⟨-, -, hc, hat⟩ := (outline.holds hr).loc t op l ht
      exact books (outline.holds hr).glob.1 hc.2.1 hat hres (Option.some.inj hstep)

end LinkedListOptik

/-! ### The list with one OPTIK word -/

namespace LinkedListOptikGL

/-- The unlinked node that a call is going to free. -/
def debt : Pc T V → List (Ptr T)
  | .removeUnlock curr => [curr]
  | .removeUnlocked curr _ => [curr]
  | .removeVal curr => [curr]
  | .removeFree curr _ => [curr]
  | _ => []

/-- A node that a call has allocated and not linked. -/
def hand : Pc T V → Option (Ptr T)
  | .insertTry _ _ newnode => some newnode
  | .insertCas _ _ newnode => some newnode
  | .insertFree newnode => some newnode
  | .insertStore _ newnode => some newnode
  | _ => none

variable {t : T} {S W : Set (GlList T K V)} {s s' : GlList T K V} {op : Call K V} {l l' : Pc T V}

theorem books (w : Wf S s) (ht : op.key < ⊤) (h : At t S W s op l) (hr : result l = none)
    (hst : step t s op l = (s', l')) :
    (view T K V).Books s.nodes (debt l) (hand l) s'.nodes (debt l') (hand l') := by
  cases l
  case insertAlloc v p c =>
    obtain ⟨⟨k, v, rfl⟩, -⟩ := h
    cases hst
    exact .allocate w.listed t _
  case insertTry v p n =>
    cases hst
    split_ifs <;> exact .read
  case insertCas v p n | removeCas v p c =>
    rcases hc : s.casLock v (v + 1) with ⟨⟨⟩, s₁⟩
    · simp only [step, hc] at hst
      cases hst
      rw [GlList.casLock_false hc]
      exact .read
    · simp only [step, hc] at hst
      cases hst
      obtain ⟨-, rfl⟩ := GlList.casLock_true hc
      exact .read
  case insertFree n =>
    cases hst
    exact .discard
  case insertStore p n =>
    obtain ⟨k, v, rfl, -, h2, h3, h4, h5⟩ := h
    cases hst
    exact .link (link_lnk w h2 h5 h3 h4) rfl rfl
  case removeStore p c n =>
    obtain ⟨-, -, h2, h3, h4, h5, rfl⟩ := h
    cases hst
    have hpt := w.listed.ne_tail_of_lt h4
    have hct : c ≠ .tail := w.listed.ne_tail_of_lt (show s.nodes.key c < ⊤ by rw [h5]; exact ht)
    exact .unlink (h3 ▸ h2.next hpt) (unlink_lnk w h2 h3 hpt hct) rfl rfl
  case removeFree c r =>
    cases hst
    exact .free
  case done => cases hr
  case unchanged => cases hr
  all_goals
    cases hst
    first
      | exact .read
      | split_ifs <;> exact .read

variable [Nontrivial K]

def accounts : Accounts (program T K V) Few ((view T K V).use GlList.nodes) :=
  NodeView.accounts debt hand (fun op => by cases op <;> exact ⟨rfl, rfl⟩)
    (fun {l r} hres => by cases l <;> cases hres <;> exact ⟨rfl, rfl⟩) ⟨rfl, rfl, fun _ => rfl⟩
    (fun hr => (outline.holds hr).glob.1.listed)
    fun {es c t op l i s' l'} hr ht hres hstep _ => by
      obtain ⟨-, -, hc, hat⟩ := (outline.holds hr).loc t op l ht
      exact books (outline.holds hr).glob.1 hc.2.1 hat hres (Option.some.inj hstep)

end LinkedListOptikGL

/-- **The lists free what they unlink.** In every run no node is freed twice or
while it is linked, and with no call running each node that was ever allocated is
linked or was freed. The OPTIK lists do so while no word of theirs is taken 2^63
times. -/
theorem lists_reclaim [Nontrivial K] :
    Reclaims (LinkedListLazy.program T K V) (fun _ _ _ _ => True)
        ((MarkedList.view T K V).use id) ∧
      (∀ roFail, Reclaims (LinkedListPugh.pughList T K V roFail) (fun _ _ _ _ => True)
        ((LockedList.view T K V).use id)) ∧
      Reclaims (LinkedListCoupling.program T K V) (fun _ _ _ _ => True)
        ((LinkedListCoupling.view T K V).use id) ∧
      Reclaims (LinkedListOptik.program T K V) LinkedListOptik.Few
        ((OptikList.view T K V).use id) ∧
      Reclaims (LinkedListOptikGL.program T K V) LinkedListOptikGL.Few
        ((LinkedListOptikGL.view T K V).use GlList.nodes) :=
  ⟨LinkedListLazy.accounts.reclaims, fun roFail => (LinkedListPugh.accounts roFail).reclaims,
    LinkedListCoupling.accounts.reclaims, LinkedListOptik.accounts.reclaims,
    LinkedListOptikGL.accounts.reclaims⟩

/-- Three threads, and keys 1 to 8. -/
theorem lists_reclaim_three : Reclaims (LinkedListLazy.program (Fin 3) (Fin 10) ℕ)
    (fun _ _ _ _ => True) ((MarkedList.view (Fin 3) (Fin 10) ℕ).use id) :=
  lists_reclaim.1

end Ascylib
