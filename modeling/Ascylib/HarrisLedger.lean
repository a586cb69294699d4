/-
# The unlinked nodes of a Harris list and who frees them

A call that has unlinked a stretch of marked nodes owes them to the allocator,
and frees them one by one; a node that it has allocated and not linked yet is
in its hand. `Accounts` says what each local state owes and holds. If every
step books at most one entry, the ledger of the whole list balances in every
run (`Accounts.books`): no published node is freed twice or while it is
linked, and with no call running every unlinked one has been freed
(`Accounts.reclaims`).
-/
import Ascylib.Concur.Ledger
import Ascylib.HarrisOutline

set_option linter.unusedSectionVars false

namespace Ascylib

open Concur Chain

namespace HarrisHeap

variable {T K V L : Type*} [DecidableEq T] [LinearOrder K] [BoundedOrder K]

/-! ### Stretches of marked nodes -/

/-- From `a` over the marked nodes `ys` to `b`. -/
def Path (s : Heap T K V) : Ptr T → List (Ptr T) → Ptr T → Prop
  | a, [], b => a = b
  | a, y :: ys, b => a = y ∧ s.Marked a ∧ Path s (s.succ a) ys b

variable {t : T} {S W : Set (Heap T K V)} {s s' : Heap T K V} {a b left : Ptr T} {ys : List (Ptr T)}

theorem Path.append_mark {c : Ptr T} (h : Path s a ys b) (hm : s.Marked b) (hc : s.succ b = c) :
    Path s a (ys ++ [b]) c := by
  induction ys generalizing a with
  | nil =>
    obtain rfl : a = b := h
    exact ⟨rfl, hm, hc⟩
  | cons y ys ih =>
    obtain ⟨rfl, h1, h2⟩ := h
    exact ⟨rfl, h1, ih h2⟩

theorem Path.marked (h : Path s a ys b) : ∀ x ∈ ys, s.Marked x := by
  induction ys generalizing a with
  | nil => exact nofun
  | cons y ys ih =>
    obtain ⟨rfl, hm, h2⟩ := h
    intro x hx
    rcases List.mem_cons.mp hx with rfl | hx
    · exact hm
    · exact ih h2 x hx

theorem Path.congr (h : Path s a ys b) (hys : ∀ x ∈ ys, s'.mem x = s.mem x) : Path s' a ys b := by
  induction ys generalizing a with
  | nil => exact h
  | cons y ys ih =>
    obtain ⟨rfl, hm, h2⟩ := h
    have hnext : s'.next a = s.next a := congrArg LlSimple.next (hys a List.mem_cons_self)
    refine ⟨rfl, by rw [Heap.Marked, hnext]; exact hm, ?_⟩
    rw [Heap.succ, hnext]
    exact ih h2 fun x hx => hys x (List.mem_cons_of_mem _ hx)

/-- A stretch of published nodes is frozen. -/
theorem Path.step (h : Path s a ys b) (hys : ∀ x ∈ ys, Pub S x) (hk : Keeps t S s s') :
    Path s' a ys b :=
  h.congr fun x hx => hk.frozen x (hys x hx) (h.marked x hx)

variable (w : Wf S s)

include w

theorem Path.pub (h : Path s a ys b) (ha : Pub S a) : Pub S b ∧ ∀ x ∈ ys, Pub S x := by
  induction ys generalizing a with
  | nil =>
    obtain rfl : a = b := h
    exact ⟨ha, nofun⟩
  | cons y ys ih =>
    obtain ⟨rfl, hm, h2⟩ := h
    have hat : a ≠ .tail := fun h => w.tail_mark (h ▸ hm)
    obtain ⟨h3, h4⟩ := ih h2 (w.next a ha hat).1
    refine ⟨h3, fun x hx => ?_⟩
    rcases List.mem_cons.mp hx with rfl | hx
    · exact ha
    · exact h4 x hx

/-- A stretch that is not empty ends to the right of where it begins. -/
theorem Path.key_le (h : Path s a ys b) (ha : ∀ x ∈ ys, Pub S x) :
    s.key a ≤ s.key b ∧ (ys ≠ [] → s.key a < s.key b) := by
  induction ys generalizing a with
  | nil =>
    obtain rfl : a = b := h
    exact ⟨le_rfl, fun h => absurd rfl h⟩
  | cons y ys ih =>
    obtain ⟨rfl, hm, h2⟩ := h
    have hat : a ≠ .tail := fun h => w.tail_mark (h ▸ hm)
    have hlt := (w.next a (ha a List.mem_cons_self) hat).2
    have hle := (ih h2 fun x hx => ha x (List.mem_cons_of_mem _ hx)).1
    exact ⟨hlt.le.trans hle, fun _ => hlt.trans_le hle⟩

/-- A stretch that begins with a linked node holds the linked nodes with keys
in between. -/
theorem Path.lnk (h : Path s a ys b) (ha : Lnk s a) : Lnk s b ∧ s.key a ≤ s.key b ∧ ys.Nodup ∧
    ∀ x, x ∈ ys ↔ Lnk s x ∧ s.key a ≤ s.key x ∧ s.key x < s.key b := by
  induction ys generalizing a with
  | nil =>
    obtain rfl : a = b := h
    refine ⟨ha, le_rfl, List.nodup_nil, fun x => ⟨nofun, fun hx => ?_⟩⟩
    exact absurd hx.2.2 (not_lt.mpr hx.2.1)
  | cons y ys ih =>
    obtain ⟨rfl, hm, h2⟩ := h
    have hat : a ≠ .tail := fun h => w.tail_mark (h ▸ hm)
    have hlt : s.key a < s.key (s.succ a) := w.sorted.step a ha hat
    obtain ⟨h3, h4, h5, h6⟩ := ih h2 (ha.next hat)
    have hnot : a ∉ ys := fun hmem => absurd ((h6 a).mp hmem).2.1 (not_le.mpr hlt)
    refine ⟨h3, hlt.le.trans h4, List.nodup_cons.mpr ⟨hnot, h5⟩, fun x => ?_⟩
    rw [List.mem_cons, h6]
    constructor
    · rintro (rfl | ⟨h7, h8, h9⟩)
      · exact ⟨ha, le_rfl, hlt.trans_le h4⟩
      · exact ⟨h7, hlt.le.trans h8, h9⟩
    · rintro ⟨h7, h8, h9⟩
      rcases w.sorted.le_or_next_le ha hat h7 with h10 | h10
      · exact Or.inl (w.sorted.inj h7 ha (le_antisymm h10 h8))
      · exact Or.inr ⟨h7, h10, h9⟩

/-- Swinging a pointer over a stretch unlinks exactly its nodes. -/
theorem Path.unlink (h : Path s a ys b) (hp : Pub S left) (hlt : left ≠ .tail)
    (hc : s.next left = a.ref) : ys.Nodup ∧ (∀ x ∈ ys, Lnk s x) ∧
      ∀ x, Lnk (s.setNext left b.ref) x ↔ Lnk s x ∧ x ∉ ys := by
  have hll : Lnk s left := w.lnk_of_next hp hc
  have hla : Lnk s a := succ_of_next hc ▸ hll.next hlt
  have hka : s.key left < s.key a := by
    have := w.sorted.step left hll hlt
    rwa [succ_of_next hc] at this
  obtain ⟨hlb, hab, hnd, hmem⟩ := h.lnk w hla
  refine ⟨hnd, fun x hx => ((hmem x).mp hx).1, fun x => ?_⟩
  rw [splice_lnk w hc hp hlb (hka.trans_le hab)]
  refine and_congr_right fun hx => ?_
  rw [hmem x, not_and, not_and, not_lt]
  constructor
  · rintro (h1 | h1) _ h2
    · exact absurd (h1.trans_lt hka) (not_lt.mpr h2)
    · exact h1
  · intro h1
    rcases w.sorted.le_or_next_le hll hlt hx with h2 | h2
    · exact Or.inl h2
    · rw [succ_of_next hc] at h2
      exact Or.inr (h1 hx h2)

/-- Swinging a pointer over one marked node. -/
theorem unlink_one {x q : Ptr T} (hp : Pub S left) (hlt : left ≠ .tail) (hc : s.next left = x.ref)
    (hm : s.Marked x) (hq : s.succ x = q) : Ledger.Entry s.Allocated (Lnk s) s.freed [] none
      (s.setNext left q.ref).Allocated (Lnk (s.setNext left q.ref)) (s.setNext left q.ref).freed [x]
      none := by
  have hpath : Path s x [x] q := ⟨rfl, hm, hq⟩
  obtain ⟨h1, h2, h3⟩ := hpath.unlink w hp hlt hc
  exact .unlink [x] (fun _ hx => hx) h1 h2 h3

omit w

/-- A step that changes no link and frees nothing. -/
theorem entry_read (s : Heap T K V) (ys : List (Ptr T)) (n : Option (Ptr T)) :
    Ledger.Entry s.Allocated (Lnk s) s.freed ys n s.Allocated (Lnk s) s.freed ys n :=
  .none (fun _ hx => hx) fun _ => Iff.rfl

/-- An allocated node is taken in hand. -/
theorem entry_allocate (w : Wf S s) (t : T) (k : K) (v : V) (q : Ptr T) (ys : List (Ptr T)) :
    Ledger.Entry s.Allocated (Lnk s) s.freed ys none (s.allocateLlSimple t k v q).1.Allocated
      (Lnk (s.allocateLlSimple t k v q).1) (s.allocateLlSimple t k v q).1.freed ys
      (some (s.allocateLlSimple t k v q).2) := by
  obtain ⟨hsame, -⟩ := w.listed.allocate t ⟨k, v, q.ref⟩
  exact .take _ (s.not_allocated_next t) (Or.inr (Or.inr ⟨t, _, rfl, s.count_allocate_self _ t⟩))
    (fun x hx => hx.mono (s.count_le_allocate _ t)) fun x => hsame.lnk w.listed x

/-! ### The books of a list -/

variable [Zero V]

/-- What each local state owes to the allocator, in order, and the node it has
in hand; every step books at most one entry. -/
structure Accounts (C : Code T K V L)
    (P : Program T (Call K V) (Answer V) (Heap T K V) L Unit) where
  debt : Heap T K V → L → List (Ptr T) → Prop
  hand : L → Option (Ptr T)
  start : ∀ s op, debt s (P.start op) [] ∧ hand (P.start op) = none
  ret : ∀ {s l r ys}, P.result l = some r → debt s l ys → ys = [] ∧ hand l = none
  stable : ∀ {t S s s' l ys}, Keeps t S s s' → (∀ x ∈ ys, Pub S x) → debt s l ys → debt s' l ys
  step : ∀ {t S W s op l s' l' ys}, Wf S s → W ⊆ S → C.At t S W s op l → P.result l = none →
    P.step () t s op l = some (s', l') → (∀ x ∈ ys, Pub S x) → debt s l ys → ∃ ys', debt s' l' ys' ∧
      Ledger.Entry s.Allocated (Lnk s) s.freed ys (hand l) s'.Allocated (Lnk s') s'.freed ys' (hand l')

/-- The list frees a published node at most once, after it was unlinked, and
with no call running has freed every published node that is not linked. -/
def Reclaims (P : Program T (Call K V) (Answer V) (Heap T K V) L Unit) : Prop :=
  ∀ es c, P.Run es c →
    (∀ x, Pub (P.seen es) x → c.shared.freed.count x ≤ 1 ∧ (x ∈ c.shared.freed → ¬ Lnk c.shared x)) ∧
    (∀ e c', P.Step c e c' → ∀ x, Pub (P.seen es) x → x ∈ c'.shared.freed → x ∉ c.shared.freed →
      ¬ Lnk c.shared x) ∧
    ((∀ t, c.threads t = none) → ∀ x, Pub (P.seen es) x → ¬ Lnk c.shared x →
      c.shared.freed.count x = 1)

namespace Accounts

variable [Nontrivial K] {C : Code T K V L} {P : Program T (Call K V) (Answer V) (Heap T K V) L Unit}
  (A : Accounts C P) (h : C.Correct P)

/-- What a thread owes and has in hand. -/
def Balanced (A : Accounts C P) (s : Heap T K V) (f : Option (Call K V × L)) (ys : List (Ptr T))
    (n : Option (Ptr T)) : Prop :=
  match f with
  | none => ys = [] ∧ n = none
  | some (_, l) => A.debt s l ys ∧ n = A.hand l

/-- The ledger of the list balances. -/
def Books (A : Accounts C P) (es : Trace T (Call K V) (Answer V) (Heap T K V) L)
    (c : Config T (Call K V) (Heap T K V) L) : Prop :=
  ∃ owes hand, Ledger c.shared.Allocated (Lnk c.shared) (Pub (P.seen es)) c.shared.freed owes hand ∧
    ∀ t, A.Balanced c.shared (c.threads t) (owes t) (hand t)

include A h

/-- **The ledger balances in every run.** -/
theorem books {es c} (hr : P.Run es c) : A.Books es c := by
  induction hr with
  | init =>
    have hfree : P.initial.shared.freed = [] := by
      rw [show P.initial.shared = Heap.empty from h.init]
      rfl
    refine ⟨fun _ => [], fun _ => none, ?_, fun t => ⟨rfl, rfl⟩⟩
    rw [hfree]
    refine Ledger.initial ?_
    rintro x ⟨s₀, rfl, hx⟩
    exact hx
  | @step es c e c' hr hst _ ih =>
    obtain ⟨owes, hand, hL, hb⟩ := ih
    have w := h.wf hr
    -- an event that leaves the memory alone changes no account
    have hsame : ∀ {e th}, Ledger c.shared.Allocated (Lnk c.shared)
        (Pub (P.seen ((e, (⟨c.shared, th⟩ : Config T (Call K V) (Heap T K V) L)) :: es)))
        c.shared.freed owes hand := by
      intro e th
      rw [Program.seen, Set.insert_eq_of_mem hr.shared_mem_seen]
      exact hL
    cases hst with
    | @call t op hidle =>
      refine ⟨owes, hand, hsame, fun u => ?_⟩
      by_cases hu : u = t
      · subst hu
        obtain ⟨h1, h2⟩ : owes u = [] ∧ hand u = none := by simpa only [Balanced, hidle] using hb u
        obtain ⟨h3, h4⟩ := A.start c.shared op
        simp only [Function.update_self, Balanced, h1, h2]
        exact ⟨h3, h4.symm⟩
      · simp only [Function.update_of_ne hu]
        exact hb u
    | @ret t op l r ht hres =>
      refine ⟨owes, hand, hsame, fun u => ?_⟩
      by_cases hu : u = t
      · subst hu
        obtain ⟨h1, h2⟩ : A.debt c.shared l (owes u) ∧ hand u = A.hand l := by
          simpa only [Balanced, ht] using hb u
        obtain ⟨h3, h4⟩ := A.ret hres h1
        simp only [Function.update_self, Balanced]
        exact ⟨h3, h2.trans h4⟩
      · simp only [Function.update_of_ne hu]
        exact hb u
    | @tau t op l s' l' i ht hres hstep =>
      have hok := h.step_ok hr ht hres hstep
      have hk := hok.act.keeps w
      obtain ⟨h1, h2⟩ : A.debt c.shared l (owes t) ∧ hand t = A.hand l := by
        simpa only [Balanced, ht] using hb t
      obtain ⟨ys', h3, he⟩ := A.step w (hr.window_subset_seen C.reset t) (h.at_loc hr ht) hres hstep
        (fun x hx => (hL.owed t x hx).1) h1
      rw [← h2] at he
      have hL' := hL.step (fun x hx => w.pub_lnk hx) (fun x hx => w.listed.alloc x hx) he
      refine ⟨Function.update owes t ys', Function.update hand t (A.hand l'), ?_, fun u => ?_⟩
      · refine hL'.congr (fun _ hx => hx) (fun _ => Iff.rfl) fun x => ?_
        exact NodeView.pub_insert
      · by_cases hu : u = t
        · subst hu
          rw [Function.update_self, Function.update_self]
          simp only [Function.update_self]
          exact ⟨h3, rfl⟩
        · simp only [Function.update_of_ne hu]
          have hbu := hb u
          rcases hc : c.threads u with _ | ⟨op₁, l₁⟩
          · simpa only [Balanced, hc] using hbu
          · simp only [Balanced, hc] at hbu ⊢
            exact ⟨A.stable hk (fun x hx => (hL.owed u x hx).1) hbu.1, hbu.2⟩

/-- What a call under way owes are published nodes. -/
theorem owed {es c} (hr : P.Run es c) {t : T} {op : Call K V} {l : L}
    (ht : c.threads t = some (op, l)) :
    ∃ ys, A.debt c.shared l ys ∧ ∀ x ∈ ys, Pub (P.seen es) x := by
  obtain ⟨owes, hand, hL, hb⟩ := A.books h hr
  obtain ⟨h1, -⟩ : A.debt c.shared l (owes t) ∧ hand t = A.hand l := by
    simpa only [Balanced, ht] using hb t
  exact ⟨owes t, h1, fun x hx => (hL.owed t x hx).1⟩

/-- **No node is freed twice, too early, or not at all.** -/
theorem reclaims : Reclaims P := by
  intro es c hr
  obtain ⟨owes, hand, hL, hb⟩ := A.books h hr
  refine ⟨fun x _ => ⟨List.nodup_iff_count_le_one.mp hL.once x, hL.freed_off x⟩,
    fun e c' hst x _ hx hx' => ?_, fun hidle x hx hxl => ?_⟩
  · obtain ⟨_, _, hL', -⟩ := A.books h (.step hr hst trivial)
    have hoff := hL'.freed_off x hx
    cases hst with
    | call => exact hoff
    | ret => exact hoff
    | @tau t op l s' l' i ht hres hstep =>
      obtain ⟨h1, -⟩ : A.debt c.shared l (owes t) ∧ hand t = A.hand l := by
        simpa only [Balanced, ht] using hb t
      obtain ⟨_, -, he⟩ := A.step (h.wf hr) (hr.window_subset_seen C.reset t) (h.at_loc hr ht) hres
        hstep (fun x hx => (hL.owed t x hx).1) h1
      rcases he.freed with hf | hl
      · exact absurd (hf ▸ hx) hx'
      · exact fun h => hoff ((hl x).mpr h)
  · rcases hL.settled x hx with h1 | h1 | ⟨t, h1⟩
    · exact absurd h1 hxl
    · exact List.count_eq_one_of_mem hL.once h1
    · obtain ⟨h2, -⟩ : owes t = [] ∧ hand t = none := by simpa only [Balanced, hidle t] using hb t
      rw [h2] at h1
      cases h1

end Accounts

end HarrisHeap

end Ascylib
