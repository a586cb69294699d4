/-
# Runs of the skip list with OPTIK locks

In every run each level stays sorted, a valid node is linked at all its levels,
and a lock that is taken is held by some call, however often inserts and removes
start again.

The calls are another matter. The state of a node is 0 until it is linked at all
its levels, and only `remove` looks at it: `search` and `insert` take such a node
to be present, so a `remove` may return 0 after them. The calls are linearizable
as long as that does not happen (`Shown`).

Key definitions: `Shown`, `LevelsOk`.
Key theorems: `skiplist_optik_levels`, `skiplist_optik_linearizable`,
`skiplist_optik_not_linearizable`.
-/
import Ascylib.SkiplistOptikSteps

set_option linter.unusedSectionVars false

namespace Ascylib

open Concur Chain LockedSkipHeap

namespace SkiplistOptik

variable {T K V : Type*} [DecidableEq T] [LinearOrder K] [BoundedOrder K] [Zero V] {t u : T}
  {S W : Set (LockedSkipHeap T K V)} {s s' : LockedSkipHeap T K V} {op : Call K V} {k : K}
  {levelmax : ℕ} {a : Preds T} {q : Caller T} {z : Locker T} {found : Option (Ptr T × OptikT)}
  {i j m : ℕ} {n x pred curr : Ptr T} {predv : OptikT} {b shown : Prop} {H X : Set (Ptr T)}

/-! ### A step of a call -/

/-- The search starts: the window begins here. -/
def reset (_ : Call K V) : Pc T V → Prop
  | .findTop _ _ => True
  | _ => False

/-- The node that the call is about to take to be present, unless it is deleted. -/
def looksAt : Pc T V → Option (Ptr T)
  | .searchDeleted node => some node
  | .insertDeleted _ _ nodeFound => some nodeFound
  | _ => none

omit [LinearOrder K] [BoundedOrder K] in
theorem not_reset_findDone (q : Caller T) (a : Preds T) (found : Option (Ptr T × OptikT)) :
    ¬ reset op (findDone q a found) := by
  have hnew : ∀ top upto n, ¬ reset op (insertNew top upto n a : Pc T V) := by
    intro top upto n
    unfold insertNew
    split_ifs <;> exact id
  match q, found with
  | .insert top 0 n, some (c, v) => exact id
  | .insert top 0 n, none => exact hnew top 0 n
  | .insert top (upto + 1) n, found => cases found <;> exact hnew top (upto + 1) n
  | .remove, some (c, v) => exact id
  | .remove, none => exact id
  | .removing n, some (c, v) => exact id
  | .removing n, none => exact id

/-- Only the first read of a search opens a window. -/
theorem not_reset_step {l : Pc T V} (hl : ∀ q, l ≠ .find q) (level : ℕ) :
    ¬ reset op (step level t s op l).2 := by
  have hlocked : ∀ (z : Locker T) a i, ¬ reset op (locked z a i : Pc T V) := fun z a i => by
    cases z <;> exact id
  have hall : ∀ (z : Locker T) a, ¬ reset op (allLocked z a : Pc T V) := fun z a => by
    cases z <;> exact id
  have hleft : ∀ p i, ¬ reset op (leftLevel p i : Pc T V) := fun p i => by cases i <;> exact id
  have hfind : ∀ (q : Caller T) p v i a f, ¬ reset op (findLevel q p v i a f : Pc T V) := by
    intro q p v i a f
    cases i with
    | zero => exact not_reset_findDone q a f
    | succ => exact id
  have hunl : ∀ z : After T, ¬ reset op (unlocked z : Pc T V) := fun z => by cases z <;> exact id
  cases l
  case find q => exact absurd rfl (hl q)
  case left => exact hleft _ _
  case findTop => exact hfind _ _ _ _ _ _
  case findEq => exact hfind _ _ _ _ _ _
  case unlock a low i old z =>
    cases i with
    | zero => exact hunl z
    | succ i =>
      simp only [step]
      split_ifs
      · exact id
      · exact id
      · exact hunl z
  case insertAlloc => cases op <;> exact id
  case lock =>
    simp only [step]
    split_ifs
    · exact hlocked _ _ _
    · exact id
    · exact id
    · exact hall _ _
  case lockCas z a i =>
    simp only [step]
    split
    · exact hlocked _ _ _
    · exact id
  case removeCas =>
    simp only [step]
    split <;> exact id
  case leftEq =>
    simp only [step]
    split_ifs
    · exact id
    · exact hleft _ _
  all_goals
    simp only [step]
    first
    | exact id
    | split_ifs <;> exact id

section step

variable {l : Pc T V} (w : Wf levelmax S s) (hs : s ∈ W) (hW : W ⊆ S) (hh : Hind W s)
  (hm : Mine s (holds l) (victims l))

include w hs hW hh hm

/-- **Every step is one of the writes, and leads to the next assertion.** -/
theorem step_ok (hpos : 0 < levelmax) {level : ℕ} (hlevel : 0 < level ∧ level ≤ levelmax)
    (hb : ⊥ < op.key) (ht : op.key < ⊤) (h : At levelmax shown t S W s op l)
    (hr : result l = none)
    (hd : ∀ x, optikIsLocked (s.lock x) = false → (step level t s op l).1.lock x = s.lock x + 1 →
      s.lock x + 1 ≠ optikDeleted)
    (hshown : shown → ∀ n, looksAt l = some n → s.lock n ≠ optikDeleted → s.state n = true) :
    StepOk levelmax shown t S (extend reset op (step level t s op l).2 (step level t s op l).1 W) s
      op l (step level t s op l).1 (step level t s op l).2 := by
  by_cases hl : ∃ q, l = .find q
  · obtain ⟨q, rfl⟩ := hl
    have hext : extend reset op (.findTop q (s.lock .head)) s W = {s} := by
      ext s₀
      simp [extend, reset]
    simp only [step, hext]
    exact step_ok_open w h
  rw [extend_of_not (not_reset_step (not_exists.mp hl) level)]
  cases l
  case find q => exact absurd ⟨q, rfl⟩ hl
  case left | leftNext | leftKey | leftEq | searchDeleted | searchVal =>
    refine step_ok_search w hs hW hh hb ht hpos h level (fun hsh n hn => hshown hsh n ?_) (by simp)
    rw [hn]
    rfl
  case insertLevel | findTop | findNext | findLock | findKey | findEq =>
    exact step_ok_find w hs hW hh hb ht hpos hlevel h (by simp)
  case insertDeleted | insertFree | removeDeleted | removeState | removeTry | removeCas |
      removeFailed | removeTop =>
    refine step_ok_found w hs hW hh hb ht hm h (fun hsh top n x hn => hshown hsh x ?_) (by simp)
    rw [hn]
    rfl
  case insertAlloc => exact step_ok_alloc w hs hW h
  case lock | lockCas => exact step_ok_lock w hs hW hm h hd (by simp)
  case insertNext | insertFill | insertLink | insertState =>
    exact step_ok_insert w hs hW hm h (by simp)
  case removeNext | removeStore | removeFree | removeVal =>
    exact step_ok_remove w hs hW hm h (by simp)
  case unlock | unlockStore => exact step_ok_unlock w hs hW hm h (by simp)
  case done => cases hr
  case unchanged => cases hr

end step

/-! ### The other threads -/

section others

variable {l : Pc T V} (w : Wf levelmax S s)

include w

/-- The assertion of a thread survives the steps of the others. -/
theorem At.other (w' : Wf levelmax (insert s' S) s') (hs : s ∈ W) (hW : W ⊆ S) (hu : u ≠ t)
    (hk : Keeps t H X S s s') (hm : Mine s (holds l) (victims l)) (hH : ∀ x ∈ holds l, x ∉ H)
    (hX : ∀ x ∈ victims l, x ∉ X) (h : At levelmax shown u S W s op l) :
    At levelmax shown u (insert s' S) (insert s' W) s' op l := by
  refine h.transfer w w' hs hW hk (fun x hx => (hk.locked (hH x hx) (hm.locked x hx)).2) ?_
    (fun x hx j => hk.kept (hX x hx)) fun hn => hn.step hk hu
  rintro a low i z ver rfl
  have hx : a.preds i ∈ a.taken low (i + 1) := ⟨i, h.2.1, i.lt_succ_self, rfl⟩
  exact (hk.locked (hH _ hx) (hm.locked _ hx)).1

omit w in
/-- So does the result of its call. -/
theorem lin_step (hk : Keeps t H X S s s') (h : At levelmax shown u S W s op l) :
    lin s' op l = lin s op l := by
  have hval : ∀ {x}, Pub 0 S x → some (Answer.val (s'.val x)) = some (.val (s.val x)) := by
    intro x hx
    rw [hk.val hx]
  have hcaller : ∀ {q : Caller T}, q.At levelmax u S s op → q.lin s' = q.lin s := by
    rintro (⟨top, upto, n⟩ | _ | n) h
    · rfl
    · rfl
    · exact hval h.2.pub
  have hlocker : ∀ {z : Locker T} {i}, z.At levelmax u S s op i → z.lin s' = z.lin s := by
    rintro (⟨top, upto, n⟩ | ⟨n, top⟩) i h
    · rfl
    · exact hval h.2.2.2.pub
  have hafter : ∀ {z : After T}, z.At levelmax u S s op → z.lin s' = z.lin s := by
    rintro (q | _ | n) h
    · exact hcaller h
    · rfl
    · exact hval h
  cases l
  case find => exact hcaller h
  case findTop | findNext | findLock | findKey | findEq => exact hcaller h.1
  case lock | lockCas => exact hlocker h.1.locker
  case removeTop => exact hval h.2.2.pub
  case removeNext => exact hval h.2.2.2.2.2.pub
  case removeStore => exact hval h.2.2.2.2.2.1.pub
  case unlock => exact hafter h.2.2.2
  case unlockStore => exact hafter h.2.2.2.1
  case removeFree | removeVal => exact hval h
  all_goals rfl

end others

/-! ### Runs -/

/-- The runs with fewer than 2^63 acquisitions of any one lock. -/
abbrev Few (levelmax : ℕ) (es : Trace T (Call K V) (Answer V) (LockedSkipHeap T K V) (Pc T V)) :=
  (optik T K V).Few (program T K V levelmax) es

/-- Whenever `search` or `insert` is about to take a node that is not deleted to
be present, its state is 1. -/
def Shown (_ : Trace T (Call K V) (Answer V) (LockedSkipHeap T K V) (Pc T V))
    (c : Config T (Call K V) (LockedSkipHeap T K V) (Pc T V)) (e : Event T (Call K V) (Answer V))
    (_ : Config T (Call K V) (LockedSkipHeap T K V) (Pc T V)) : Prop :=
  ∀ t op l n, e = .tau t → c.threads t = some (op, l) → looksAt l = some n →
    c.shared.lock n ≠ optikDeleted → c.shared.state n = true

theorem start_at (op : Call K V) : At levelmax shown t S {s} s op (start op) := by
  rcases op with k | ⟨k, v⟩ | k
  · exact ⟨k, rfl⟩
  · exact ⟨k, v, rfl⟩
  · exact ⟨k, rfl⟩

theorem start_holds (op : Call K V) :
    holds (start op : Pc T V) = ∅ ∧ victims (start op : Pc T V) = ∅ := by
  cases op <;> exact ⟨rfl, rfl⟩

/-- What one thread has locked or deleted, no other has. -/
structure Apart (l l' : Pc T V) : Prop where
  holds : ∀ x ∈ holds l, x ∉ SkiplistOptik.holds l'
  victims : ∀ x ∈ victims l, x ∉ SkiplistOptik.victims l'

section outline

variable {ok : Trace T (Call K V) (Answer V) (LockedSkipHeap T K V) (Pc T V) →
    Config T (Call K V) (LockedSkipHeap T K V) (Pc T V) → Event T (Call K V) (Answer V) →
    Config T (Call K V) (LockedSkipHeap T K V) (Pc T V) → Prop}
  (hfew : ∀ {es c e c'}, ok es c e c' → Few levelmax es c e c')
  (hshown : shown → ∀ {es c e c'}, ok es c e c' → Shown es c e c')

/-- What is known of a thread in a call. -/
structure Local (levelmax : ℕ) (shown : Prop) (t : T) (S W : Set (LockedSkipHeap T K V))
    (s : LockedSkipHeap T K V) (op : Call K V) (l : Pc T V) : Prop where
  sub : W ⊆ S
  hind : Hind W s
  client : Client op
  mine : Mine s (holds l) (victims l)
  at_pc : At levelmax shown t S W s op l

include hfew hshown

theorem tau_ok {es : Trace T (Call K V) (Answer V) (LockedSkipHeap T K V) (Pc T V)}
    {c : Config T (Call K V) (LockedSkipHeap T K V) (Pc T V)} {l l' : Pc T V} {i : Fin levelmax}
    (c' : Config T (Call K V) (LockedSkipHeap T K V) (Pc T V)) (w : Wf levelmax S c.shared)
    (hb : (optik T K V).Bounded (program T K V levelmax) es c.shared) (hs : c.shared ∈ W)
    (hl : Local levelmax shown t S W c.shared op l) (ht : c.threads t = some (op, l))
    (hres : result l = none) (hstep : step (i + 1) t c.shared op l = (c'.shared, l'))
    (hok : ok es c (.tau t) c') :
    StepOk levelmax shown t S (extend reset op l' c'.shared W) c.shared op l c'.shared l' := by
  have hd : ∀ x, optikIsLocked (c.shared.lock x) = false →
      (step (i + 1) t c.shared op l).1.lock x = c.shared.lock x + 1 →
      c.shared.lock x + 1 ≠ optikDeleted := by
    intro x hu hx
    rw [hstep] at hx
    rw [← hx]
    exact hb.take_ne_deleted (hfew hok) hu hx
  have hok' := step_ok w hs hl.sub hl.hind hl.mine (Fin.pos i) ⟨Nat.succ_pos _, i.isLt⟩
    hl.client.1 hl.client.2.1 hl.at_pc hres hd
    fun hsh n hn => hshown hsh hok t op l n rfl ht hn
  rwa [hstep] at hok'

variable [Nontrivial K]

/-- The proof outline. -/
def outline : Outline (program T K V levelmax) ok reset where
  glob es s := Wf levelmax ((program T K V levelmax).seen es) s ∧
    (optik T K V).Bounded (program T K V levelmax) es s
  loc t W₀ W s op l := Local levelmax shown t W₀ W s op l
  pair f g := Apart f.2 g.2
  pair_symm h := ⟨fun x hx hx' => h.holds x hx' hx, fun x hx hx' => h.victims x hx' hx⟩
  init := ⟨Wf.initial levelmax, .initial fun x => by cases x <;> rfl⟩
  frame := by
    intro es s e th ⟨hw, hb⟩ _
    rw [Program.seen, Set.insert_eq_of_mem hw.mem]
    exact ⟨hw, hb.frame⟩
  call := by
    intro es s op t _ hs hp
    obtain ⟨h1, h2⟩ := start_holds (T := T) op
    refine ⟨Set.singleton_subset_iff.mpr hs, fun i => .singleton _, hp, ?_, start_at op⟩
    show Mine s (holds (start op : Pc T V)) (victims (start op : Pc T V))
    rw [h1, h2]
    exact ⟨fun x hx => hx.elim, fun x hx => hx.elim, fun hx => hx.elim⟩
  call_pair := by
    intro op g
    obtain ⟨h1, h2⟩ := start_holds (T := T) op
    refine ⟨fun x hx => ?_, fun x hx => ?_⟩
    · exact absurd (h1 ▸ hx : x ∈ (∅ : Set (Ptr T))) (Set.notMem_empty x)
    · exact absurd (h2 ▸ hx : x ∈ (∅ : Set (Ptr T))) (Set.notMem_empty x)
  tau := by
    intro es c t op l i s' l' hr ht hres hstep hok ⟨hw, hb⟩ hl
    have hst := tau_ok hfew hshown ⟨s', Function.update c.threads t (some (op, l'))⟩ hw hb
      (hr.shared_mem_window _ ht) hl ht hres (Option.some.inj hstep) hok
    have hw' := hst.act.wf hw hl.mine.clear
    have hk := hst.act.keeps hw
    refine ⟨⟨hw', ?_⟩, ⟨?_, ?_, hl.client, hst.act.mine hw hl.mine, hst.next⟩,
      fun u op₁ l₁ hu hcu hl₁ hp => ⟨⟨?_, ?_, hl₁.client, ?_, ?_⟩, ⟨fun x hx hx₁ => ?_,
        fun x hx hx₁ => ?_⟩⟩⟩
    · exact hb.step (hfew hok) fun x => (hst.act.touch hw x).imp_right And.left
    · rintro s (rfl | ⟨-, hs⟩)
      · exact Set.mem_insert _ _
      · exact Set.mem_insert_of_mem _ (hl.sub hs)
    · by_cases hreset : reset op l'
      · have : extend reset op l' s' (window reset t es) = {s'} := by
          ext s
          simp [extend, hreset]
        rw [this]
        exact fun i => .singleton _
      · rw [extend_of_not hreset]
        exact hst.act.hindsight hw hl.sub hl.hind
    · exact Set.insert_subset_insert hl₁.sub
    · exact hst.act.hindsight hw hl₁.sub hl₁.hind
    · exact hst.act.mine_other hw hl.mine hl₁.mine fun hx₁ hx => hp.holds _ hx hx₁
    · exact hl₁.at_pc.other hw hw' (hr.shared_mem_window _ hcu) hl₁.sub hu hk hl₁.mine
        (fun x hx₁ hx => hp.holds x hx hx₁) fun x hx₁ hx => hp.victims x hx hx₁
    · rcases hst.act.holds hx with h | h
      · exact hp.holds x h hx₁
      · rw [(hl₁.mine.locked x hx₁).locked] at h
        cases h
    · rcases hst.act.victims hx with h | h
      · exact hp.victims x h hx₁
      · rw [hl₁.mine.deleted x hx₁, optikDeleted_locked] at h
        cases h

end outline

section run

variable [Nontrivial K] {es es₂ : Trace T (Call K V) (Answer V) (LockedSkipHeap T K V) (Pc T V)}
  {c c₂ : Config T (Call K V) (LockedSkipHeap T K V) (Pc T V)}

/-- The outline of the runs in which `search` and `insert` may be wrong. -/
def levels : Outline (program T K V levelmax) (Few levelmax) reset :=
  outline (fun h => h) fun h : False => h.elim

theorem wf_of_run (hr : (program T K V levelmax).RunIf (Few levelmax) es c) :
    Wf levelmax ((program T K V levelmax).seen es) c.shared := (levels.holds hr).glob.1

/-- What a step of a run does. -/
theorem act_of_run (c₂ : Config T (Call K V) (LockedSkipHeap T K V) (Pc T V))
    (hr : (program T K V levelmax).RunIf (Few levelmax) es c) {l l' : Pc T V} {i : Fin levelmax}
    (ht : c.threads t = some (op, l)) (hres : result l = none)
    (hstep : step (i + 1) t c.shared op l = (c₂.shared, l'))
    (hfew : Few levelmax es c (.tau t) c₂) :
    Act levelmax t ((program T K V levelmax).seen es) c.shared (holds l) (victims l) (holds l')
      (victims l') c₂.shared := by
  obtain ⟨hw, hb⟩ := (levels.holds hr).glob
  exact (tau_ok (fun h => h) (fun h : False => h.elim) c₂ hw hb (hr.shared_mem_window reset ht)
    ((levels.holds hr).loc t op l ht) ht hres hstep hfew).act

/-- A linked node whose word is odd is locked or deleted by a call. -/
theorem held_of_run (hr : (program T K V levelmax).RunIf (Few levelmax) es c) {i : ℕ} {x : Ptr T}
    (hx : Lnk i c.shared x) (hl : optikIsLocked (c.shared.lock x) = true) :
    ∃ t op l, c.threads t = some (op, l) ∧ x ∈ holds l ∪ victims l := by
  refine hr.responsible (Q := fun s => (∃ j, Lnk j s x) ∧ optikIsLocked (s.lock x) = true)
    (A := fun _ l => x ∈ holds l ∪ victims l) ?_ ?_ ?_ ⟨⟨i, hx⟩, hl⟩
  · rintro ⟨⟨j, hx⟩, hl⟩
    rcases (lnk_empty j x).mp hx with rfl | rfl <;>
      · change optikIsLocked optikInit = true at hl
        rw [optikInit_unlocked] at hl
        cases hl
  · intro op l r hres
    obtain ⟨h1, h2⟩ := returned_holds hres
    rw [h1, h2, Set.empty_union]
    exact Set.notMem_empty x
  · intro es c t op l i s' l' hr ht hres hstep hfew ⟨⟨j, hx⟩, hl⟩
    have hact := act_of_run ⟨s', Function.update c.threads t (some (op, l'))⟩ hr ht hres
      (Option.some.inj hstep) hfew
    exact hact.held (wf_of_run hr) hx hl

/-- A deleted node that is linked nowhere stays so. -/
theorem removed_of_run (hr : (program T K V levelmax).RunIf (Few levelmax) es c)
    (hr₂ : (program T K V levelmax).RunIf (Few levelmax) (es₂ ++ es) c₂) {x : Ptr T}
    (hd : c.shared.lock x = optikDeleted) (hx : ∀ i, ¬ Lnk i c.shared x) :
    c₂.shared.lock x = optikDeleted ∧ ∀ i, ¬ Lnk i c₂.shared x := by
  induction es₂ generalizing c₂ with
  | nil =>
    have : c₂.shared = c.shared := by rw [← hr₂.last_eq, ← hr.last_eq]; rfl
    rw [this]
    exact ⟨hd, hx⟩
  | cons p es₂ ih =>
    cases hr₂ with
    | @step _ c₁ e _ hr₁ hst hfew =>
      obtain ⟨h1, h2⟩ := ih hr₁
      cases hst with
      | call => exact ⟨h1, h2⟩
      | @tau t op l s' l' i ht hres hstep =>
        have hk := (act_of_run ⟨s', Function.update c₁.threads t (some (op, l'))⟩ hr₁ ht
          hres (Option.some.inj hstep) hfew).keeps (wf_of_run hr₁)
        exact ⟨hk.dels h1, fun i hl => h2 i (hk.gone (hk.dels h1) hl)⟩
      | ret => exact ⟨h1, h2⟩

/-- What holds at the end of a run. -/
structure LevelsOk (levelmax : ℕ)
    (es : Trace T (Call K V) (Answer V) (LockedSkipHeap T K V) (Pc T V))
    (c : Config T (Call K V) (LockedSkipHeap T K V) (Pc T V)) : Prop where
  sorted : ∀ i, Sorted (fun x => c.shared.next x i) c.shared.key .head .tail
  valid : ∀ x, c.shared.state x = true → c.shared.lock x ≠ optikDeleted →
    ∀ i, Lnk i c.shared x ↔ i < c.shared.toplevel x
  /-- `remove` has gone through the levels of `node`. -/
  removed : ∀ t op a node top, c.threads t = some (op, .removeNext a node top top) →
    c.shared.toplevel node = top ∧
      ∀ es₂ c₂, (program T K V levelmax).RunIf (Few levelmax) (es₂ ++ es) c₂ →
        ∀ i, ¬ Lnk i c₂.shared node
  idle : (∀ t, c.threads t = none) → ∀ i x, Lnk i c.shared x → (c.shared.lock x).toNat % 2 = 0

/-- **The levels of the skip list.** Each is sorted and ends at the tail; a valid
node is linked at its levels and no others; a removed one is never linked again;
and with no call running no lock of the list is taken. -/
theorem skiplist_optik_levels (hr : (program T K V levelmax).RunIf (Few levelmax) es c) :
    LevelsOk levelmax es c := by
  have w := wf_of_run hr
  refine ⟨fun i => (w.listed i).sorted, fun x hst hd i => ⟨fun hl => ?_, fun hi => ?_⟩,
    fun t op a node top ht => ?_, fun hidle i x hx => ?_⟩
  · have hin := w.inner hst
    exact (w.tall (w.pub_lnk hl) hin.1 hin.2).1
  · exact w.lnk (w.full hst hi) hd
  · obtain ⟨-, -, -, -, -, hv⟩ := ((levels.holds hr).loc t op _ ht).at_pc
    refine ⟨hv.top, fun es₂ c₂ hr₂ => (removed_of_run hr hr₂ hv.deleted fun i hl => ?_).2⟩
    have hin := w.inner (w.state hv.deleted)
    exact hv.gone i (hv.top ▸ (w.tall (w.pub_lnk hl) hin.1 hin.2).1) hl
  · rw [← not_locked_iff]
    by_contra hl
    obtain ⟨t, op, l, ht, -⟩ := held_of_run hr hx (Bool.not_eq_false _ ▸ hl)
    rw [hidle t] at ht
    cases ht

/-- **The skip list is linearizable to the map of its valid nodes** in the runs
in which `search` and `insert` take only valid nodes to be present. -/
theorem skiplist_optik_linearizable [Fintype T] :
    LinearizableIf (mapObject K V) (program T K V levelmax)
      (fun es c e c' => Few levelmax es c e c' ∧ Shown es c e c') absMap := by
  have hfew : ∀ {es c e c'}, (Few (T := T) (K := K) (V := V) levelmax es c e c' ∧ Shown es c e c') →
      Few levelmax es c e c' := And.left
  have hshown : True → ∀ {es c e c'}, (Few (T := T) (K := K) (V := V) levelmax es c e c' ∧
      Shown es c e c') → Shown es c e c' := fun _ => And.right
  refine Concur.linearizable <| (outline hfew hshown).points lin (empty_absMap levelmax)
    (fun s op => by cases op <;> rfl) (fun {es c t op l i s' l'} hr hh ht hres hstep hok => ?_)
    fun {es c t op l r} hr hh ht hres => ?_
  · obtain ⟨hw, hb⟩ := hh.glob
    have hst := tau_ok hfew hshown ⟨s', Function.update c.threads t (some (op, l'))⟩ hw hb
      (hr.shared_mem_window _ ht) (hh.loc t op l ht) ht hres (Option.some.inj hstep) hok
    exact ⟨hst.point, fun u op₁ l₁ _ hu => lin_step (hst.act.keeps hw) (hh.loc u op₁ l₁ hu).at_pc⟩
  · have hat := (hh.loc t op l ht).at_pc
    cases l <;> cases hres
    · exact Or.inl rfl
    · obtain ⟨s₀, hs₀, h⟩ := hat trivial
      exact Or.inr ⟨rfl, s₀, window_subset_since _ _ _ hs₀, h⟩

/-- Three threads, keys 1 to 8, and nodes of up to four levels. -/
theorem skiplist_optik_linearizable_three :
    LinearizableIf (mapObject (Fin 10) ℕ) (program (Fin 3) (Fin 10) ℕ 4)
      (fun es c e c' => Few 4 es c e c' ∧ Shown es c e c') absMap :=
  skiplist_optik_linearizable

end run

/-! ### A node at two levels -/

/-- Thread 0 inserts 5, at two levels. -/
def inserted : List (Move (Fin 2) (Call (Fin 12) ℕ) (Fin 2)) :=
  [.call 0 (.insert 5 7)] ++ List.replicate 27 (.tau 0 1) ++ [.ret 0]

theorem inserted_node :
    ((program (Fin 2) (Fin 12) ℕ 2).play ([], (program (Fin 2) (Fin 12) ℕ 2).initial) inserted).map
      (fun q => (q.1.length, q.2.shared.state (.node 0 0), q.2.shared.lock (.node 0 0),
        q.2.shared.toplevel (.node 0 0), decide (∀ t, (q.2.threads t).isNone))) =
    some (29, true, optikInit, 2, true) := by
  decide +kernel

/-- The node of `inserted` is linked at both levels, and no lock is taken. -/
theorem skiplist_optik_levels_inserted : ∃ es c,
    (program (Fin 2) (Fin 12) ℕ 2).RunIf (Few 2) es c ∧ (∀ i, Lnk i c.shared (.node 0 0) ↔ i < 2) ∧
      ∀ i x, Lnk i c.shared x → (c.shared.lock x).toNat % 2 = 0 := by
  obtain ⟨⟨es, c⟩, hplay, hq⟩ := Option.map_eq_some_iff.mp inserted_node
  simp only [Prod.mk.injEq, decide_eq_true_eq, Option.isNone_iff_eq_none] at hq
  obtain ⟨hlen, hst, hlock, htop, hidle⟩ := hq
  have hpre : ∀ t op, .call t op ∈ inserted → (program (Fin 2) (Fin 12) ℕ 2).pre op := by
    intro t op h
    simp only [inserted, List.mem_append, List.mem_cons, List.mem_replicate, List.not_mem_nil,
      or_false, reduceCtorEq, and_false, Move.call.injEq] at h
    obtain ⟨-, rfl⟩ := h
    exact ⟨by decide, by decide, fun k v h => by cases h; decide⟩
  have hr := OptikView.few_of_length (O := optik (Fin 2) (Fin 12) ℕ)
    (Program.play_run _ .init hpre hplay) (by rw [show es.length = 29 from hlen]; decide)
  have hok := skiplist_optik_levels hr
  refine ⟨es, c, hr, fun i => ?_, hok.idle hidle⟩
  have hd : c.shared.lock (.node 0 0) ≠ optikDeleted := by
    rw [show c.shared.lock (.node 0 0) = optikInit from hlock]
    decide
  rw [hok.valid (.node 0 0) hst hd i, show c.shared.toplevel (.node 0 0) = 2 from htop]

/-! ### A half-inserted node -/

/-- Thread 0 has linked 5 at level 0, and not at level 1. Thread 1 finds it, and
then does not remove it. -/
def halfInserted : List (Move (Fin 2) (Call (Fin 12) ℕ) (Fin 2)) :=
  [.call 0 (.insert 5 7)] ++ List.replicate 17 (.tau 0 1) ++
  [.call 1 (.search 5)] ++ List.replicate 9 (.tau 1 0) ++ [.ret 1] ++
  [.call 1 (.remove 5)] ++ List.replicate 12 (.tau 1 0) ++ [.ret 1]

/-- What happens before thread 1 calls `remove(5)`, newest first. -/
def halfInsertedBefore : List (Event (Fin 2) (Call (Fin 12) ℕ) (Answer ℕ)) :=
  [.ret 1 (.search 5) (.val 7)] ++ List.replicate 9 (.tau 1) ++ [.call 1 (.search 5)] ++
  List.replicate 17 (.tau 0) ++ [.call 0 (.insert 5 7)]

theorem halfInserted_events :
    ((program (Fin 2) (Fin 12) ℕ 2).play ([], (program (Fin 2) (Fin 12) ℕ 2).initial)
      halfInserted).map (fun q => q.1.map Prod.fst) =
    some (.ret 1 (.remove 5) (.val 0) :: (List.replicate 12 (.tau 1) ++ .call 1 (.remove 5) ::
      halfInsertedBefore)) := by
  decide +kernel

/-- **A `remove` can return 0 for a key that a search has found.** In the run of
`halfInserted` nobody else removes 5: no order of the calls explains the 0. -/
theorem skiplist_optik_not_linearizable :
    ¬ HistoriesLinearizable (mapObject (Fin 12) ℕ) (program (Fin 2) (Fin 12) ℕ 2) := by
  refine not_linearizable_of_play halfInserted_events ?_ ?_ ?_ ?_ ?_
  · intro t op h
    simp only [halfInserted, List.mem_append, List.mem_cons, List.mem_replicate, List.not_mem_nil,
      or_false, reduceCtorEq, and_false, Move.call.injEq] at h
    rcases h with (⟨-, rfl⟩ | ⟨-, rfl⟩) | ⟨-, rfl⟩
    · exact ⟨by decide, by decide, fun k v h => by cases h; decide⟩
    · exact ⟨by decide, by decide, fun k v h => by cases h⟩
    · exact ⟨by decide, by decide, fun k v h => by cases h⟩
  · intro u v h
    simp [halfInsertedBefore] at h
    rw [h.2]
    decide
  · intro u h
    simp [halfInsertedBefore] at h
  · intro op r h
    simp at h
  · exact ⟨1, .search 5, .val 7, by simp [halfInsertedBefore], rfl, by decide⟩

end SkiplistOptik

end Ascylib
