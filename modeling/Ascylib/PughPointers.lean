/-
# The pointers of Pugh's list

`src/algorithms/linkedlist_pugh.h` with and without `RO_FAIL`: without it,
`insert` and `remove` start with `search_strong`, which does not read
`pred->next` before it locks. The values do not matter here, they may be 0.

A node that was removed points back, possibly to a node that is removed later.
Still the tail is reached from every node: each write leads its node to a
linked one (`next_or`).

Key theorem: `pugh_list_pointers`.
-/
import Ascylib.Concur.Redirect
import Ascylib.LinkedListPugh

set_option linter.unusedSectionVars false

namespace Ascylib

open Concur Chain

namespace LinkedListPugh

open LockedList

variable {T K V : Type*} [DecidableEq T] [LinearOrder K] [Zero V]

/-- `search_strong`: `search_weak_left` is left for the lock at once. -/
def stepStrong (t : T) (s : LockedHeap T K V) (op : Call K V) (l : Pc T V) :
    Option (LockedHeap T K V × Pc T V) :=
  match l with
  | .weakLeftLt pred succ =>
    some (s, if s.key succ < op.key then .weakLeftNext succ else .strongLock pred)
  | l => step t s op l

/-- The list, built with `RO_FAIL` or without it, for clients that keep to keys
strictly between the sentinels'. -/
def pughList (T K V : Type*) [DecidableEq T] [LinearOrder K] [BoundedOrder K] [Zero V]
    (roFail : Bool) : Program T (Call K V) (Answer V) (LockedHeap T K V) (Pc T V) Unit where
  init := LockedHeap.empty
  pre := Keyed
  start := start
  step _ t s op l := if roFail then step t s op l else stepStrong t s op l
  result := result

variable [BoundedOrder K] {t u : T} {S W : Set (LockedHeap T K V)} {s s' : LockedHeap T K V}
  {op : Call K V} {k : K} {p c x : Ptr T} {l l' : Pc T V} {roFail : Bool}

/-! ### The calls without their answers -/

/-- The assertion, but for the answer of a call that changed nothing. -/
def Place (t : T) (S W : Set (LockedHeap T K V)) (s : LockedHeap T K V) (op : Call K V)
    (l : Pc T V) : Prop :=
  (∀ r, l ≠ .unchanged r) → At t S W s op l

/-- **Every step is one of the writes, and leads to the next assertion.** -/
theorem place_ok (w : Wf S s) (hs : s ∈ W) (hW : W ⊆ S) (hh : Hind W s) (hb : ⊥ < op.key)
    (ht : op.key < ⊤) (h : Place t S W s op l) (hr : result l = none)
    (hstep : (if roFail then step t s op l else stepStrong t s op l) = some (s', l')) :
    Act t S s s' ∧ Place t (insert s' S) (insert s' W) s' op l' := by
  have hat : At t S W s op l := h fun r hl => by subst hl; cases hr
  have hread : ∀ {l'}, At t S W s op l' → Act t S s s ∧ Place t (insert s S) (insert s W) s op l' := by
    intro l' h'
    rw [Set.insert_eq_of_mem w.listed.mem, Set.insert_eq_of_mem hs]
    exact ⟨.skip, fun _ => h'⟩
  by_cases hl : ∃ p c, l = .condEq p c
  · obtain ⟨p, c, rfl⟩ := hl
    obtain ⟨h1, h2, -⟩ := hat
    have hstep : step t s op (.condEq p c) = some (s', l') := by
      cases roFail <;> exact hstep
    cases hstep
    split_ifs
    · exact ⟨.skip, fun hne => absurd rfl (hne _)⟩
    · exact hread ⟨h1, h2.1.mono hW, h2.2⟩
  · have hok : step t s op l = some (s', l') →
        Act t S s s' ∧ Place t (insert s' S) (insert s' W) s' op l' := by
      intro hst
      have := step_ok w hs hW hh hb ht hat hst hr fun k p c _ he => absurd ⟨p, c, he⟩ hl
      exact ⟨this.act, fun _ => this.next⟩
    cases roFail with
    | true => exact hok hstep
    | false =>
      cases l
      case weakLeftLt p c =>
        cases hstep
        obtain ⟨h1, h2, h3⟩ := hat
        split_ifs with hlt
        · exact hread ⟨h1, h3.1, hlt⟩
        · exact hread ⟨h1, h2.1.mono hW, h2.2⟩
      all_goals exact hok hstep

/-! ### Where the pointers lead -/

/-- The tail is reached from the node. -/
abbrev Reaches (s : LockedHeap T K V) (x : Ptr T) : Prop := Linked s.next x .tail .tail

/-- The successor of a node that was linked has been linked, and so on to the tail. -/
structure Rejoin (S : Set (LockedHeap T K V)) (s : LockedHeap T K V) : Prop where
  closed : ∀ x, Pub S x → x ≠ .tail → Pub S (s.next x)
  reaches : ∀ x, Pub S x → Reaches s x

/-- The node is removed and points back. -/
structure TurnedBack (S : Set (LockedHeap T K V)) (s : LockedHeap T K V) (x : Ptr T) : Prop where
  pub : Pub S x
  off : ¬ Lnk s x
  next : Pub S (s.next x)
  lt : s.key (s.next x) < s.key x

/-- From a linked node the list is followed to its end. -/
theorem reaches_of_lnk (h : (view T K V).Listed S s) (hx : Lnk s x) : Reaches s x := by
  rcases hx.total h.sorted.tail with hp | hp
  · exact hp
  · rcases hp.cases_head with rfl | ⟨y, ⟨hne, -⟩, -⟩
    · exact linked_head
    · exact absurd rfl hne

section act

variable (w : Wf S s) (h : Act t S s s')

include w h

/-- After a write a node leads where it led, or to a linked node. -/
theorem next_or (hx : Pub (insert s' S) x) (hxt : x ≠ .tail) :
    Pub S x ∧ s'.next x = s.next x ∨ Lnk s' (s'.next x) := by
  by_cases hl : Lnk s' x
  · exact Or.inr (hl.next hxt)
  · have hx' : Pub S x := (h.pub w x hx).resolve_right fun hn => hl hn.1
    rcases h.unlinked w x hx' hl with hn | ⟨hn, -, -⟩
    · exact Or.inl ⟨hx', hn⟩
    · exact Or.inr hn

/-- **The tail stays in reach.** -/
theorem Rejoin.step (hj : Rejoin S s) : Rejoin (insert s' S) s' where
  closed x hx hxt := by
    rcases next_or w h hx hxt with ⟨hx', hn⟩ | hl
    · rw [hn]
      exact (hj.closed x hx' hxt).insert s'
    · exact (h.wf w).listed.pub_lnk hl
  reaches x hx := by
    have hlnk : ∀ {y}, Lnk s' y → Reaches s' y := reaches_of_lnk (h.wf w).listed
    rcases h.pub w x hx with hx | ⟨hl, -⟩
    · refine (hj.reaches x hx).redirect_tail hj.closed hx fun y hy hyt => ?_
      exact (next_or w h (hy.insert s') hyt).imp And.right hlnk
    · exact hlnk hl

theorem TurnedBack.step (hx : TurnedBack S s x) : TurnedBack (insert s' S) s' x := by
  have hk := h.keeps w
  have hoff : ¬ Lnk s' x := fun hl => ((h.lnk w x).1 hl).elim hx.off fun hn => hn hx.pub
  rcases h.unlinked w x hx.pub hoff with hn | ⟨hl, hlt, -⟩
  · refine ⟨hx.pub.insert s', hoff, ?_, ?_⟩
    · rw [hn]
      exact hx.next.insert s'
    · rw [hn, hk.key _ hx.next, hk.key x hx.pub]
      exact hx.lt
  · exact ⟨hx.pub.insert s', hoff, (h.wf w).listed.pub_lnk hl, hlt⟩

end act

theorem TurnedBack.of_back (hp : Held t S s p) (hx : Held t S s x)
    (hoff : ¬ Lnk s x) (hlt : s.key p < s.key x) (w : Wf S s) :
    TurnedBack (insert (s.setNext x p) S) (s.setNext x p) x where
  pub := hx.1.insert _
  off h := hoff (((back_same hoff p).lnk w.listed x).mp h)
  next := by
    rw [LockedHeap.next_setNext_self]
    exact hp.1.insert _
  lt := by
    rw [LockedHeap.next_setNext_self, LockedHeap.key_setNext, LockedHeap.key_setNext]
    exact hlt

/-! ### Runs -/

variable [Nontrivial K]

theorem Rejoin.initial : Rejoin {(LockedHeap.empty : LockedHeap T K V)} LockedHeap.empty := by
  have w : Wf {(LockedHeap.empty : LockedHeap T K V)} LockedHeap.empty := .initial
  refine ⟨fun x hx hxt => ?_, fun x hx => ?_⟩ <;> obtain ⟨s, rfl, hx⟩ := hx
  · exact w.listed.pub_lnk (hx.next hxt)
  · exact reaches_of_lnk w.listed hx

/-- The proof outline. -/
def pointers (roFail : Bool) :
    Outline (pughList T K V roFail) (fun _ _ _ _ => True) (fun _ _ => False) where
  glob es s := Wf ((pughList T K V roFail).seen es) s ∧ Rejoin ((pughList T K V roFail).seen es) s
  loc t W₀ W s op l := W ⊆ W₀ ∧ Hind W s ∧ Keyed op ∧ Place t W₀ W s op l
  pair _ _ := True
  pair_symm := id
  init := ⟨.initial, .initial⟩
  frame := by
    intro es s e th hw _
    rw [Program.seen, Set.insert_eq_of_mem hw.1.listed.mem]
    exact hw
  call t hw hs hp := ⟨Set.singleton_subset_iff.mpr hs, .singleton _, hp, fun _ => start_at _⟩
  call_pair := trivial
  tau := by
    intro es c t op l i s' l' hr ht hres hstep _ hw ⟨hW, hh, hc, hat⟩
    obtain ⟨hact, hnext⟩ := place_ok hw.1 (hr.shared_mem_window _ ht) hW hh hc.1 hc.2 hat hres hstep
    have hk := hact.keeps hw.1
    rw [extend_of_not id]
    exact ⟨⟨hact.wf hw.1, hw.2.step hw.1 hact⟩, ⟨Set.insert_subset_insert hW,
      hact.hindsight hw.1 hW hh, hc, hnext⟩, fun u op₁ l₁ hu _ ⟨hW₁, hh₁, hc₁, hat₁⟩ _ =>
        ⟨⟨Set.insert_subset_insert hW₁, hact.hindsight hw.1 hW₁ hh₁, hc₁, fun hne =>
          (hat₁ hne).step hW₁ hu hk⟩, trivial⟩⟩

variable {es es₁ es₂ : Trace T (Call K V) (Answer V) (LockedHeap T K V) (Pc T V)}
  {c₀ c₁ : Config T (Call K V) (LockedHeap T K V) (Pc T V)} {v : V}

/-- A `remove` has unlinked the node, and has returned since. -/
def RemoveDone (es : Trace T (Call K V) (Answer V) (LockedHeap T K V) (Pc T V)) (x : Ptr T) : Prop :=
  ∃ es₁ es₂ e c t op p v, es = es₁ ++ (e, c) :: es₂ ∧ c.threads t = some (op, .removeBack p x v) ∧
    ∃ op' r c', (.ret t op' r, c') ∈ es₁

/-- What a step does to a node that points back. -/
theorem turnedBack_step (hr : (pughList T K V roFail).Run es c₀) {e}
    (hst : (pughList T K V roFail).Step c₀ e c₁)
    (hx : TurnedBack ((pughList T K V roFail).seen es) c₀.shared x) :
    TurnedBack ((pughList T K V roFail).seen ((e, c₁) :: es)) c₁.shared x := by
  have hh := (pointers roFail).holds hr
  rw [Program.seen]
  cases hst with
  | call => rwa [Set.insert_eq_of_mem hr.shared_mem_seen]
  | ret => rwa [Set.insert_eq_of_mem hr.shared_mem_seen]
  | @tau t op l s' l' i ht hres hstep =>
    obtain ⟨hW, hi, hc, hat⟩ := hh.loc t op l ht
    exact hx.step hh.glob.1 (place_ok hh.glob.1 (hr.shared_mem_window _ ht) hW hi hc.1 hc.2 hat hres
      hstep).1

/-- After it has unlinked the node, a `remove` does not return before the node
points back. -/
theorem turnedBack_or {e} (hr : (pughList T K V roFail).Run (es₁ ++ (e, c₀) :: es₂) c₁)
    (ht : c₀.threads t = some (op, .removeBack p x v)) :
    TurnedBack ((pughList T K V roFail).seen (es₁ ++ (e, c₀) :: es₂)) c₁.shared x ∨
      c₁.threads t = some (op, .removeBack p x v) ∧ ∀ op' r c', (.ret t op' r, c') ∉ es₁ := by
  induction es₁ generalizing c₁ with
  | nil =>
    cases hr
    exact Or.inr ⟨ht, fun _ _ _ => List.not_mem_nil⟩
  | cons q es₁ ih =>
    cases hr with
    | @step _ c₂ e' _ hr hst _ =>
    rcases ih hr with hx | ⟨ht', hret⟩
    · exact Or.inl (turnedBack_step hr hst hx)
    have hother : ∀ {u y}, u ≠ t → Function.update c₂.threads u y t = some (op, .removeBack p x v) :=
      fun hu => by rw [Function.update_of_ne hu.symm, ht']
    cases hst with
    | @call u op₁ hidle =>
      refine Or.inr ⟨hother fun he => ?_, fun op' r c' hm => ?_⟩
      · rw [he, ht'] at hidle
        cases hidle
      · rcases List.mem_cons.mp hm with he | hm
        · cases he
        · exact hret op' r c' hm
    | @tau u op₁ l s' l' i hu hres hstep =>
      by_cases he : u = t
      · subst he
        rw [ht'] at hu
        cases hu
        obtain ⟨-, -, -, hat⟩ := ((pointers roFail).holds hr).loc u op _ ht'
        obtain ⟨h1, -, h3, h4, h5⟩ := hat nofun
        have hs' : s' = c₂.shared.setNext x p := by
          cases roFail <;> cases hstep <;> rfl
        subst hs'
        exact Or.inl (.of_back h1 h3 h4 h5 ((pointers roFail).holds hr).glob.1)
      · refine Or.inr ⟨hother he, fun op' r c' hm => ?_⟩
        rcases List.mem_cons.mp hm with he | hm
        · cases he
        · exact hret op' r c' hm
    | @ret u op₁ l r hu hres =>
      have hut : u ≠ t := by
        rintro rfl
        rw [ht'] at hu
        cases hu
        cases hres
      refine Or.inr ⟨hother hut, fun op' r c' hm => ?_⟩
      rcases List.mem_cons.mp hm with he | hm
      · cases he
        exact hut rfl
      · exact hret op' r c' hm

/-- Where the pointers lead, in every state of every run: from every node that
was ever linked to the tail, from a linked node to a greater key, and from a
removed node, once its `remove` has returned, to a smaller one. -/
def PointersOk (P : Program T (Call K V) (Answer V) (LockedHeap T K V) (Pc T V) Unit) : Prop :=
  ∀ es c, P.Run es c →
    (∀ x, Pub (P.seen es) x → ∃ n, c.shared.next^[n] x = .tail) ∧
    (∀ x, Lnk c.shared x → x ≠ .tail → c.shared.key x < c.shared.key (c.shared.next x)) ∧
    ∀ x, RemoveDone es x → c.shared.key (c.shared.next x) < c.shared.key x

/-- **Pointers that lead back never lead astray.** -/
theorem pugh_list_pointers (roFail : Bool) : PointersOk (pughList T K V roFail) := by
  intro es c hr
  obtain ⟨⟨hw, hj⟩, -, -⟩ := (pointers roFail).holds hr
  refine ⟨fun x hx => (hj.reaches x hx).iterate, fun x hx hxt => hw.listed.sorted.step x hx hxt, ?_⟩
  rintro x ⟨es₁, es₂, e, c₀, t, op, p, v, rfl, ht, op', r, c', hret⟩
  rcases turnedBack_or hr ht with hx | ⟨-, hno⟩
  · exact hx.lt
  · exact absurd hret (hno op' r c')

/-- Three threads, and keys 1 to 8. -/
theorem pugh_list_pointers_three : PointersOk (pughList (Fin 3) (Fin 10) ℕ true) :=
  pugh_list_pointers true

end LinkedListPugh

end Ascylib
