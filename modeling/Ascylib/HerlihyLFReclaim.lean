/-
# What the lock-free skip list has freed

`remove` of `skiplist_herlihy_lf.h` marks its node at every level, lets
`herlihy_search` unlink it at every level, and frees it. An insert links its
node above level 0 by a CAS on the pointer of a predecessor. That CAS does not
look at `new_node->next[i]` again: the node may have been marked, unlinked and
freed since (`linked_after_free`), its pointer may still lead to a node that
has been freed since, and the node linked in front of may be an old one of
the same key, which the search of its remove then does not come to.

In the runs in which no such CAS succeeds every level is a sorted list, and
what a remove frees is linked nowhere, and never is again.

Key theorems: `herlihy_lf_reclaims`, `linked_after_free`.
-/
import Ascylib.SkipLevels
import Ascylib.SkiplistHerlihyLF

set_option linter.unusedSectionVars false

namespace Ascylib

open Concur Chain

namespace SkiplistHerlihyLF

open SkipHeap

variable {T K V : Type*} [DecidableEq T] [LinearOrder K] [Zero V]

/-- A CAS that links a node above level 0 finds the node's pointer as it left
it, and links it in front of a node of another key. -/
def LinksFresh (s : SkipHeap T K V) (op : Call K V) (l : Pc T V) : Prop :=
  ∀ newNode i lists, l = .linkCas newNode i lists →
    s.next (lists.preds i) i = (lists.succs i).ref →
    s.next newNode i = (lists.succs i).ref ∧ s.key (lists.succs i) ≠ op.key

/-- The runs in which every such CAS does. -/
def OnTime (_ : Trace T (Call K V) (Answer V) (SkipHeap T K V) (Pc T V))
    (c : Config T (Call K V) (SkipHeap T K V) (Pc T V)) (e : Event T (Call K V) (Answer V))
    (_ : Config T (Call K V) (SkipHeap T K V) (Pc T V)) : Prop :=
  ∀ t op l, e = .tau t → c.threads t = some (op, l) → LinksFresh c.shared op l

/-- A remove has come to its `ssmem_free` of the node. -/
def Freed (es : Trace T (Call K V) (Answer V) (SkipHeap T K V) (Pc T V)) (x : Ptr T) : Prop :=
  ∃ p ∈ es, ∃ t op r, p.2.threads t = some (op, .removeFree x r)

variable [BoundedOrder K] {t u : T} {S W : Set (SkipHeap T K V)} {s s' : SkipHeap T K V}
  {op : Call K V} {levelmax : ℕ}

/-! ### What holds at each point of a call -/

/-- From level `i` up the arrays hold nodes of their level. -/
def Lists.Up (levelmax : ℕ) (S : Set (SkipHeap T K V)) (i : ℕ) (a : Lists T) : Prop :=
  ∀ j, i ≤ j → j < levelmax → PubAt j S (a.preds j) ∧ PubAt j S (a.succs j)

/-- A remove fills one array only, and does not use it above level 0. -/
def Filled (levelmax : ℕ) (S : Set (SkipHeap T K V)) (op : Call K V) (i : ℕ) (a : Lists T) : Prop :=
  (∃ k v, op = .insert k v) → a.Up levelmax S i

/-- A search records its nodes of level `i`. -/
theorem Lists.Up.set {i j : ℕ} {a : Lists T} {left right : Ptr T}
    (h : ∀ k, j ≤ k → k < levelmax → k ≠ i → PubAt k S (a.preds k) ∧ PubAt k S (a.succs k))
    (hl : PubAt i S left) (hr : PubAt i S right) : (a.set i left right).Up levelmax S j := by
  intro k hjk hk
  by_cases hki : k = i
  · subst hki
    simp only [Lists.set, Function.update_self]
    exact ⟨hl, hr⟩
  · simp only [Lists.set, Function.update_of_ne hki]
    exact h k hjk hk hki

theorem Filled.record {i : ℕ} {a : Lists T} {left right : Ptr T} (h : Filled levelmax S op (i + 1) a)
    (hl : PubAt i S left) (hr : PubAt i S right) :
    Filled levelmax S op i (a.record op i left right) := by
  rintro ⟨k, v, rfl⟩
  exact Lists.Up.set (fun j hij hj hne =>
    h ⟨k, v, rfl⟩ j (Nat.succ_le_of_lt (lt_of_le_of_ne hij hne.symm)) hj) hl hr

/-- A node of thread `t`, linked below level `i` only. -/
def Half (t : T) (S : Set (SkipHeap T K V)) (s : SkipHeap T K V) (i : ℕ) (x : Ptr T) : Prop :=
  ∃ m, x = .node t m ∧ m < s.count t ∧ (∀ j < i, PubAt j S x) ∧ ∀ j, i ≤ j → ¬ PubAt j S x

/-- The node of a remove, that its search has unlinked from level `i` up. -/
def Going (levelmax : ℕ) (S : Set (SkipHeap T K V)) (s : SkipHeap T K V) (op : Call K V) (i : ℕ)
    (x : Ptr T) : Prop :=
  Retired levelmax S s i x ∧ s.key x = op.key

def Caller.Up (levelmax : ℕ) (t : T) (S : Set (SkipHeap T K V)) (s : SkipHeap T K V)
    (op : Call K V) (i : ℕ) : Caller T V → Prop
  | .insert newNode j lists => Half t S s j newNode ∧ lists.Up levelmax S 0
  | .remove nodeDel _ => Going levelmax S s op i nodeDel

/-- The node of a remove is none of these. -/
def Caller.Off (c : Caller T V) (p : Ptr T → Prop) : Prop := ∀ x r, c = .remove x r → p x

/-- The assertion at each local state, besides `At`: the nodes a thread holds
belong to the level where it uses them. -/
def Up (levelmax : ℕ) (t : T) (S : Set (SkipHeap T K V)) (s : SkipHeap T K V) (op : Call K V) :
    Pc T V → Prop
  | .noCleanup left i lists => PubAt i S left ∧ Filled levelmax S op (i + 1) lists
  | .noCleanupMark left right i lists => PubAt i S left ∧ PubAt i S right ∧
      Filled levelmax S op (i + 1) lists
  | .noCleanupKey left right i lists => PubAt i S left ∧ PubAt i S right ∧
      Filled levelmax S op (i + 1) lists
  | .noCleanupNext left right i lists => PubAt i S left ∧ PubAt i S right ∧
      Filled levelmax S op (i + 1) lists
  | .found _ lists => Filled levelmax S op 0 lists
  | .insertAlloc lists => lists.Up levelmax S 0
  | .insertFill _ _ lists => lists.Up levelmax S 0
  | .insertCas _ lists => lists.Up levelmax S 0
  | .linkTop newNode i lists => Half t S s i newNode ∧ lists.Up levelmax S 0
  | .linkMark newNode i lists => Half t S s i newNode ∧ lists.Up levelmax S 0
  | .linkCas newNode i lists => Half t S s i newNode ∧ lists.Up levelmax S 0
  | .cleanup c left i => c.Up levelmax t S s op (i + 1) ∧ PubAt i S left
  | .cleanupNext c left leftNext right i => c.Up levelmax t S s op (i + 1) ∧ PubAt i S left ∧
      PubAt i S leftNext ∧ PubAt i S right ∧ MarkedTo i s leftNext right ∧
      c.Off fun x => NotBefore i s x leftNext
  | .cleanupKey c left leftNext right rightNext i => c.Up levelmax t S s op (i + 1) ∧
      PubAt i S left ∧ PubAt i S leftNext ∧ PubAt i S right ∧ MarkedTo i s leftNext right ∧
      (c.Off fun x => NotBefore i s x leftNext ∧ right ≠ x) ∧
      (s.key right < op.key → PubAt i S rightNext ∧ c.Off fun x => NotBefore i s x rightNext)
  | .cleanupCas c left leftNext right i => c.Up levelmax t S s op (i + 1) ∧ PubAt i S left ∧
      PubAt i S leftNext ∧ PubAt i S right ∧ MarkedTo i s leftNext right ∧
      c.Off fun x => right ≠ x
  | .cleanupEq c _ => c.Up levelmax t S s op 0
  | .removeVal nodeDel => Doomed S s nodeDel ∧ s.key nodeDel = op.key
  | .removeFree nodeDel _ => Retired levelmax S s 0 nodeDel
  | _ => True

section stable

variable (a : Write False t S s s') (w : Leveled S s)

theorem Lists.Up.step {i : ℕ} {x : Lists T} (h : x.Up levelmax S i) :
    x.Up levelmax (insert s' S) i := fun j hij hj =>
  ⟨(h j hij hj).1.insert s', (h j hij hj).2.insert s'⟩

theorem Filled.step {i : ℕ} {x : Lists T} (h : Filled levelmax S op i x) :
    Filled levelmax (insert s' S) op i x := fun ho => (h ho).step

include a w

theorem Half.step {i : ℕ} {x : Ptr T} (h : Half u S s i x) (hu : u ≠ t) :
    Half u (insert s' S) s' i x := by
  obtain ⟨m, rfl, h1, h2, h3⟩ := h
  exact ⟨m, rfl, h1.trans_le ((a.stays w).count u), fun j hj => (h2 j hj).insert s',
    fun j hj => a.unpublished w hu (h3 j hj)⟩

theorem Going.step {i : ℕ} {x : Ptr T} (h : Going levelmax S s op i x) :
    Going levelmax (insert s' S) s' op i x :=
  ⟨a.retired w h.1, by rw [(a.stays w).key x h.1.1.1]; exact h.2⟩

theorem caller_up_step {i : ℕ} {c : Caller T V} (h : c.Up levelmax u S s op i) (hu : u ≠ t) :
    c.Up levelmax u (insert s' S) s' op i := by
  cases c with
  | insert newNode j lists => exact ⟨h.1.step a w hu, h.2.step⟩
  | remove nodeDel result => exact Going.step a w h

/-- What the search of a remove knows of a node it has come to. -/
theorem off_step {i j : ℕ} {c : Caller T V} {r : Ptr T} (h : c.Up levelmax u S s op j)
    (hr : PubAt i S r) (ho : c.Off fun x => NotBefore i s x r) :
    c.Off fun x => NotBefore i s' x r := by
  rintro x v rfl
  exact (ho x v rfl).step w (a.stays w) (a.gone w h.1.1) h.1.1.1 (w.pub_zero hr)

end stable

/-- A step of another thread keeps the assertion. -/
theorem Up.step {l : Pc T V} (a : Write False t S s s') (w : Leveled S s)
    (h : Up levelmax u S s op l) (hu : u ≠ t) : Up levelmax u (insert s' S) s' op l := by
  have hk := a.stays w
  cases l with
  | noCleanup left i lists => exact ⟨h.1.insert s', h.2.step⟩
  | noCleanupMark left right i lists
  | noCleanupKey left right i lists
  | noCleanupNext left right i lists => exact ⟨h.1.insert s', h.2.1.insert s', h.2.2.step⟩
  | found right lists => exact Filled.step h
  | insertAlloc lists | insertFill newNode i lists | insertCas newNode lists =>
    exact Lists.Up.step h
  | linkTop newNode i lists | linkMark newNode i lists | linkCas newNode i lists =>
    exact ⟨h.1.step a w hu, h.2.step⟩
  | cleanup c left i => exact ⟨caller_up_step a w h.1 hu, h.2.insert s'⟩
  | cleanupNext c left leftNext right i =>
    obtain ⟨h1, h2, h3, h4, h5, h6⟩ := h
    exact ⟨caller_up_step a w h1 hu, h2.insert s', h3.insert s', h4.insert s', h5.step w h3 hk,
      off_step a w h1 h3 h6⟩
  | cleanupKey c left leftNext right rightNext i =>
    obtain ⟨h1, h2, h3, h4, h5, h6, h7⟩ := h
    refine ⟨caller_up_step a w h1 hu, h2.insert s', h3.insert s', h4.insert s', h5.step w h3 hk,
      fun x v hc => ?_, fun hlt => ?_⟩
    · exact ⟨off_step a w h1 h3 (fun x v hc => (h6 x v hc).1) x v hc, (h6 x v hc).2⟩
    · rw [hk.key right (w.pub_zero h4)] at hlt
      exact ⟨(h7 hlt).1.insert s', off_step a w h1 (h7 hlt).1 (h7 hlt).2⟩
  | cleanupCas c left leftNext right i =>
    obtain ⟨h1, h2, h3, h4, h5, h6⟩ := h
    exact ⟨caller_up_step a w h1 hu, h2.insert s', h3.insert s', h4.insert s', h5.step w h3 hk, h6⟩
  | cleanupEq c right => exact caller_up_step a w h hu
  | removeVal nodeDel => exact ⟨h.1.step hk, by rw [hk.key _ h.1.1]; exact h.2⟩
  | removeFree nodeDel result => exact a.retired w h
  | _ => trivial

/-! ### The steps -/

/-- A step is one of the writes, links no node late, and establishes the next
assertion. -/
structure UpOk (levelmax : ℕ) (t : T) (S : Set (SkipHeap T K V)) (s : SkipHeap T K V)
    (op : Call K V) (q : SkipHeap T K V × Pc T V) : Prop where
  write : Write False t S s q.1
  next : Up levelmax t (insert q.1 S) q.1 op q.2

theorem UpOk.read {l : Pc T V} (w : Leveled S s) (h : Up levelmax t S s op l) :
    UpOk levelmax t S s op (s, l) := by
  refine ⟨.skip, ?_⟩
  rw [Set.insert_eq_of_mem (w.listed 0).mem]
  exact h

section step

variable (hpos : 0 < levelmax) (w : Leveled S s) (hW : W ⊆ S) {level : ℕ} {l : Pc T V}
  (hat : At levelmax t S W s op l) (hup : Up levelmax t S s op l)

include w hat hup

theorem up_search
    (hl : (∃ a i, l = .left a i) ∨ (∃ a b i, l = .leftKey a b i) ∨ (∃ a b i, l = .leftCond a b i) ∨
      (∃ a b i, l = .leftMark a b i) ∨ (∃ a b i, l = .leftNext a b i) ∨
      (∃ a b i, l = .leftEq a b i) ∨ (∃ a, l = .searchEq a) ∨ ∃ a, l = .searchVal a) :
    UpOk levelmax t S s op (step levelmax level t s op l) := by
  rcases hl with ⟨a, i, rfl⟩ | ⟨a, b, i, rfl⟩ | ⟨a, b, i, rfl⟩ | ⟨a, b, i, rfl⟩ | ⟨a, b, i, rfl⟩ |
    ⟨a, b, i, rfl⟩ | ⟨a, rfl⟩ | ⟨a, rfl⟩
  · exact .read w trivial
  · simp only [step]
    split <;> exact .read w trivial
  · simp only [step]
    split <;> exact .read w trivial
  · simp only [step]
    split <;> exact .read w trivial
  · exact .read w trivial
  · simp only [step]
    split
    · exact .read w trivial
    · cases i <;> exact .read w trivial
  · simp only [step]
    split <;> exact .read w trivial
  · exact .read w trivial

theorem up_no_cleanup
    (hl : (∃ a i x, l = .noCleanup a i x) ∨ (∃ a b i x, l = .noCleanupMark a b i x) ∨
      (∃ a b i x, l = .noCleanupKey a b i x) ∨ (∃ a b i x, l = .noCleanupNext a b i x) ∨
      ∃ b x, l = .found b x) :
    UpOk levelmax t S s op (step levelmax level t s op l) := by
  rcases hl with ⟨a, i, x, rfl⟩ | ⟨a, b, i, x, rfl⟩ | ⟨a, b, i, x, rfl⟩ | ⟨a, b, i, x, rfl⟩ |
    ⟨b, x, rfl⟩
  · obtain ⟨h1, h2⟩ := hup
    have hlt : s.key a < op.key := hat.1.2.1
    exact .read w ⟨h1, (w.next h1 (w.ne_tail_of_lt hlt)).1, h2⟩
  · simp only [step]
    split <;> exact .read w hup
  · obtain ⟨h1, h2, h3⟩ := hup
    simp only [step]
    split
    · have hfill : Filled levelmax S op i (x.record op i a b) := h3.record h1 h2
      cases i with
      | zero => exact .read w hfill
      | succ i => exact .read w ⟨w.down h1 i.le_succ, hfill⟩
    · exact .read w ⟨h2, h2, h3⟩
  · obtain ⟨h1, h2, h3⟩ := hup
    have hbt : b ≠ .tail := hat.2.1.2.1
    exact .read w ⟨h1, (w.next h2 hbt).1, h3⟩
  · cases op with
    | insert k v =>
      simp only [step]
      split
      · exact .read w trivial
      · exact .read w (hup ⟨k, v, rfl⟩)
    | remove k | search k =>
      simp only [step]
      split <;> exact .read w trivial

theorem up_insert
    (hl : (∃ x, l = .insertAlloc x) ∨ (∃ n i x, l = .insertFill n i x) ∨
      (∃ n x, l = .insertCas n x) ∨ ∃ n x, l = .insertFree n x) :
    UpOk levelmax t S s op (step levelmax level t s op l) := by
  rcases hl with ⟨x, rfl⟩ | ⟨n, i, x, rfl⟩ | ⟨n, x, rfl⟩ | ⟨n, x, rfl⟩
  · obtain ⟨⟨k, v, rfl⟩, -⟩ := hat
    refine ⟨.own (w.not_pub_next t) (Memory.count_allocate_self s _ t)
      (fun y hy => Memory.mem_allocate_of_ne s y _ t hy) (Memory.count_le_allocate s _ t), ?_⟩
    exact Lists.Up.step hup
  · obtain ⟨k, v, h, -, -, -, -, hpriv, -⟩ := hat
    obtain ⟨hn, ⟨m, rfl, hm⟩, -⟩ := hpriv
    simp only [step]
    split
    · refine ⟨.own (fun h => hn (pubAt_zero.mp h)) hm (fun y hy => mem_setNext_of_ne s _ y i _ hy)
        fun _ => le_rfl, ?_⟩
      exact Lists.Up.step hup
    · exact .read w hup
  · obtain ⟨k, v, h, rfl, hpos, hle, hpriv, habs⟩ := hat
    obtain ⟨hn, ⟨m, rfl, hm⟩, hkey, -, htop, hnext⟩ := hpriv
    obtain ⟨hlists, hlm, hlt⟩ := habs
    obtain ⟨hp, -⟩ := hup 0 le_rfl hlm
    have hkp : s.key (x.preds 0) < k := (hlists 0 le_rfl hlm).1.2
    have hn0 : ¬ PubAt 0 S (.node t m) := fun h => hn (pubAt_zero.mp h)
    rcases hc : s.cas (x.preds 0) 0 (unsetMark (x.succs 0).ref) (Ptr.node t m).ref with ⟨⟨⟩, s'⟩
    · simp only [step, hc]
      rw [cas_false hc]
      exact .read w trivial
    · simp only [step, hc]
      obtain ⟨hcn, rfl⟩ := cas_true hc
      have hnq := hnext 0 hpos
      have hnp : (s.next (.node t m) 0).ptr = x.succs 0 := by rw [hnq]; rfl
      have h1 : s.key (x.preds 0) < s.key (.node t m) := by rw [hkey]; exact hkp
      have h2 : s.key (.node t m) < s.key (x.succs 0) := by rw [hkey]; exact hlt
      have hact : Write False t S s (s.setNext (x.preds 0) 0 (Ptr.node t m).ref) :=
        .link hcn hp hn0 hm hnp (not_marked_of_next hnq) h1 h2 (by rw [htop]; exact hpos) fun j hj => absurd hj j.not_lt_zero
      refine ⟨hact, ⟨m, rfl, hm, fun j hj => ?_, fun j hj hpub => ?_⟩,
        Lists.Up.step hup⟩
      · obtain rfl : j = 0 := Nat.lt_one_iff.mp hj
        exact (link_tower w hcn hp hnp h1 hn0 0 _).2.mpr (Or.inr ⟨rfl, rfl⟩)
      · rcases (link_tower w hcn hp hnp h1 hn0 j _).2.mp hpub with hpub | ⟨rfl, -⟩
        · exact hn0 (w.pub_zero hpub)
        · exact absurd hj (by decide)
  · exact ⟨.free n, (w.keep_free n).2.pub_head _, fun _ j hij hj => by omega⟩

include hpos

theorem up_link (hf : LinksFresh s op l)
    (hl : (∃ n i x, l = .linkTop n i x) ∨ (∃ n i x, l = .linkMark n i x) ∨
      ∃ n i x, l = .linkCas n i x) : UpOk levelmax t S s op (step levelmax level t s op l) := by
  rcases hl with ⟨n, i, x, rfl⟩ | ⟨n, i, x, rfl⟩ | ⟨n, i, x, rfl⟩
  · simp only [step]
    split
    · exact .read w hup
    · exact .read w trivial
  · simp only [step]
    split
    · exact .read w trivial
    · exact .read w hup
  · obtain ⟨⟨-, -, hkey, hle, hlists, -, -⟩, htop⟩ := hat
    obtain ⟨⟨m, rfl, hm, hdown, hup'⟩, hx⟩ := hup
    have hi : i < levelmax := htop.trans_le hle
    obtain ⟨hp, -⟩ := hx i i.zero_le hi
    obtain ⟨⟨-, hkp⟩, -, hks⟩ := hlists i i.zero_le hi
    rcases hc : s.cas (x.preds i) i (x.succs i).ref (Ptr.node t m).ref with ⟨⟨⟩, s'⟩
    · simp only [step, hc]
      rw [cas_false hc]
      exact .read w ⟨⟨⟨m, rfl, hm, hdown, hup'⟩, hx⟩, w.pub_head _⟩
    · simp only [step, hc]
      obtain ⟨hcn, rfl⟩ := cas_true hc
      obtain ⟨hnq, hne⟩ := hf _ i x rfl hcn
      have hnp : (s.next (.node t m) i).ptr = x.succs i := by rw [hnq]; rfl
      have hn0 := hup' i le_rfl
      have h1 : s.key (x.preds i) < s.key (.node t m) := by rw [hkey]; exact hkp
      have h2 : s.key (.node t m) < s.key (x.succs i) := by
        rw [hkey]
        exact lt_of_le_of_ne hks (Ne.symm hne)
      have hact : Write False t S s (s.setNext (x.preds i) i (Ptr.node t m).ref) :=
        .link hcn hp hn0 hm hnp (not_marked_of_next hnq) h1 h2 htop hdown
      have hpub := fun j => (link_tower w hcn hp hnp h1 hn0 j (.node t m)).2
      refine ⟨hact, ⟨m, rfl, hm, fun j hj => ?_, fun j hj hpj => ?_⟩, hx.step⟩
      · rcases (Nat.le_of_lt_succ hj).lt_or_eq with hj | rfl
        · exact (hdown j hj).insert _
        · exact (hpub j).mpr (Or.inr ⟨rfl, rfl⟩)
      · rcases (hpub j).mp hpj with hpj | ⟨rfl, -⟩
        · exact hup' j (Nat.le_of_succ_le hj) hpj
        · exact absurd hj (Nat.not_succ_le_self j)

omit hpos hat hup in
/-- The search is done with level `i`, where the node of its remove is not
linked. -/
theorem up_cleanupLevel {c : Caller T V} {left right : Ptr T} {i : ℕ}
    (h1 : c.Up levelmax t S s op (i + 1)) (h2 : PubAt i S left) (h3 : PubAt i S right)
    (h4 : c.Off fun x => ¬ LnkAt i s x) :
    Up levelmax t S s op (cleanupLevel c left right i) := by
  have hc : (c.record i left right).Up levelmax t S s op i := by
    cases c with
    | insert n j x =>
      exact ⟨h1.1, Lists.Up.set (fun j' _ hj _ => h1.2 j' j'.zero_le hj) h2 h3⟩
    | remove n r =>
      refine ⟨⟨h1.1.1, fun j hij hj => ?_⟩, h1.2⟩
      rcases hij.eq_or_lt with rfl | hij
      · exact h4 n r rfl
      · exact h1.1.2 j hij hj
  cases i with
  | zero => exact hc
  | succ i => exact ⟨hc, w.down h2 i.le_succ⟩

omit hpos hat hup in
/-- A search begins, or begins again. -/
theorem up_cleanup {c : Caller T V} {i : ℕ} (h : c.Up levelmax t S s op i) :
    Up levelmax t S s op (.cleanup c .head (levelmax - 1)) := by
  refine ⟨?_, w.pub_head _⟩
  cases c with
  | insert n j x => exact h
  | remove n r => exact ⟨⟨h.1.1, fun j hij hj => by omega⟩, h.2⟩

theorem up_cleanup_step
    (hl : (∃ c a i, l = .cleanup c a i) ∨ (∃ c a b x i, l = .cleanupNext c a b x i) ∨
      (∃ c a b x y i, l = .cleanupKey c a b x y i) ∨ (∃ c a b x i, l = .cleanupCas c a b x i) ∨
      ∃ c x, l = .cleanupEq c x) :
    UpOk levelmax t S s op (step levelmax level t s op l) := by
  rcases hl with ⟨c, a, i, rfl⟩ | ⟨c, a, b, x, i, rfl⟩ | ⟨c, a, b, x, y, i, rfl⟩ |
    ⟨c, a, b, x, i, rfl⟩ | ⟨c, x, rfl⟩
  · obtain ⟨h1, h2⟩ := hup
    have hlt : s.key a < op.key := hat.2.2
    by_cases hm : s.Marked a i
    · simp only [step, isMarked, show (s.next a i).mark = true from hm, if_true]
      exact .read w (up_cleanup w h1)
    · simp only [step, isMarked, show (s.next a i).mark = false by simpa [Marked] using hm]
      have hn := (w.next h2 (w.ne_tail_of_lt hlt)).1
      refine .read w ⟨h1, h2, hn, hn, .refl, ?_⟩
      rintro n r rfl
      have hr : s.next a i = (s.next a i).ptr.ref := next_eq_ref hm
      exact notBefore_next w h2 hr (hlt.trans_eq h1.2.symm)
  · obtain ⟨h1, h2, h3, h4, h5, h6⟩ := hup
    by_cases hm : s.Marked x i
    · simp only [step, isMarked, show (s.next x i).mark = true from hm, if_true]
      have hxt : x ≠ .tail := fun he => w.tail_mark i (he ▸ hm)
      exact .read w ⟨h1, h2, h3, (w.next h4 hxt).1, h5.tail ⟨hm, rfl⟩, h6⟩
    · simp only [step, isMarked, show (s.next x i).mark = false by simpa [Marked] using hm]
      have hr : s.next x i = (s.next x i).ptr.ref := next_eq_ref hm
      refine .read w ⟨h1, h2, h3, h4, h5, fun n r hc => ⟨h6 n r hc, ?_⟩, fun hlt => ⟨?_, ?_⟩⟩
      · subst hc
        rintro rfl
        exact hm (h1.1.1.2 i hat.2.2.2.1.2)
      · exact (w.next h4 (w.ne_tail_of_lt hlt)).1
      · rintro n r rfl
        exact notBefore_next w h4 hr (hlt.trans_eq h1.2.symm)
  · obtain ⟨h1, h2, h3, h4, h5, h6, h7⟩ := hup
    by_cases hle : op.key ≤ s.key x
    · by_cases hbx : b = x
      · simp only [step, hle, if_true, hbx, ne_eq, not_true_eq_false, if_false]
        refine .read w (up_cleanupLevel w h1 h2 h4 ?_)
        rintro n r rfl
        obtain ⟨h8, h9⟩ := h6 n r rfl
        exact (hbx ▸ h8).gone h9 (h1.2.trans_le hle)
      · simp only [step, hle, if_true, ne_eq, hbx, not_false_eq_true]
        exact .read w ⟨h1, h2, h3, h4, h5, fun n r hc => (h6 n r hc).2⟩
    · simp only [step, hle, if_false]
      obtain ⟨h8, h9⟩ := h7 (not_le.mp hle)
      exact .read w ⟨h1, h4, h8, h8, .refl, h9⟩
  · obtain ⟨h1, h2, h3, h4, h5, h6⟩ := hup
    have hlt : s.key a < op.key := hat.2.1.2
    have hle : op.key ≤ s.key x := hat.2.2.2.2.2
    rcases hc : s.cas a i b.ref x.ref with ⟨⟨⟩, s'⟩
    · simp only [step, hc]
      rw [cas_false hc]
      exact .read w (up_cleanup w h1)
    · simp only [step, hc]
      obtain ⟨hn, rfl⟩ := cas_true hc
      obtain ⟨hr, hact⟩ : LnkAt i s x ∧ Write False t S s (s.setNext a i x.ref) :=
        splice_write w h2 hn h5 (hlt.trans_le hle)
      refine ⟨hact, up_cleanupLevel (hact.leveled w) ?_ (h2.insert _) (h4.insert _) ?_⟩
      · cases c with
        | insert n j x =>
          obtain ⟨⟨m, rfl, hm, hdown, hup'⟩, hx⟩ := h1
          have hpub := fun j => (splice_tower w hn h2 hr (hlt.trans_le hle) j (.node t m)).2
          exact ⟨⟨m, rfl, hm, fun j hj => (hdown j hj).insert _,
            fun j hj h => hup' j hj ((hpub j).mp h)⟩, hx.step⟩
        | remove n r => exact Going.step hact w h1
      · rintro n r rfl
        exact gone_of_splice w h2 hn hr (hlt.trans_eq h1.2.symm) (h1.2.trans_le hle) (h6 n r rfl)
  · cases c with
    | insert n i lists => exact .read w hup
    | remove n r => exact .read w hup.1

omit hpos in
include hW in
theorem up_remove (hb : ⊥ < op.key) (ht : op.key < ⊤)
    (hl : (∃ n, l = .markTop n) ∨ (∃ n i, l = .markNext n i) ∨ (∃ n i r, l = .markCas n i r) ∨
      (∃ n, l = .removeVal n) ∨ ∃ n r, l = .removeFree n r) :
    UpOk levelmax t S s op (step levelmax level t s op l) := by
  rcases hl with ⟨n, rfl⟩ | ⟨n, i, rfl⟩ | ⟨n, i, r, rfl⟩ | ⟨n, rfl⟩ | ⟨n, r, rfl⟩
  · simp only [step]
    split <;> exact .read w trivial
  · simp only [step]
    split
    · cases i <;> exact .read w trivial
    · exact .read w trivial
  · obtain ⟨⟨-, hp, hkey, -⟩, hi, hmarks, hr⟩ := hat
    obtain ⟨q, m⟩ := r
    obtain rfl : m = false := hr
    have hp0 : PubAt 0 S n := pubAt_zero.mpr (hp.mono hW)
    rcases hc : s.cas n i (unsetMark ⟨q, false⟩) (setMark ⟨q, false⟩) with ⟨⟨⟩, s'⟩
    · simp only [step, hc]
      rw [cas_false hc]
      exact .read w trivial
    · simp only [step, hc]
      obtain ⟨hn, rfl⟩ := cas_true hc
      have hact : Write False t S s (s.setNext n i (setMark q.ref)) := .mark hn hp0
        (w.ne_head_of_lt (k := ⊥) (by rw [hkey]; exact hb))
        (w.ne_tail_of_lt (k := ⊤) (by rw [hkey]; exact ht))
      refine ⟨hact, ?_⟩
      cases i with
      | zero =>
        refine ⟨⟨hp0.insert _, fun j hj => ?_⟩, (key_setNext s n n 0 _).trans hkey⟩
        refine (mark_marked n j).mpr ?_
        rcases Nat.eq_zero_or_pos j with rfl | h0
        · exact Or.inr ⟨rfl, rfl⟩
        · exact Or.inl (hmarks j h0 ((toplevel_setNext s n n 0 _).symm ▸ hj))
      | succ i => trivial
  · refine .read w (up_cleanup (i := levelmax) w ⟨⟨hup.1, fun j hij hj => ?_⟩, hup.2⟩)
    exact absurd hj (not_lt.mpr hij)
  · exact ⟨.free n, trivial⟩

include hpos hW in
/-- **Every step links its nodes in order, and leads to the next assertion.** -/
theorem up_ok (hb : ⊥ < op.key) (ht : op.key < ⊤) (hf : LinksFresh s op l) (hr : result l = none) :
    UpOk levelmax t S s op (step levelmax level t s op l) := by
  cases l
  case left | leftKey | leftCond | leftMark | leftNext | leftEq | searchEq | searchVal =>
    exact up_search w hat hup (by simp)
  case noCleanup | noCleanupMark | noCleanupKey | noCleanupNext | found =>
    exact up_no_cleanup w hat hup (by simp)
  case insertAlloc | insertFill | insertCas | insertFree => exact up_insert w hat hup (by simp)
  case linkTop | linkMark | linkCas => exact up_link hpos w hat hup hf (by simp)
  case cleanup | cleanupNext | cleanupKey | cleanupCas | cleanupEq =>
    exact up_cleanup_step hpos w hat hup (by simp)
  case markTop | markNext | markCas | removeVal | removeFree =>
    exact up_remove w hW hat hup hb ht (by simp)
  case done => cases hr
  case unchanged => cases hr

end step

/-! ### The runs -/

section runs

variable [Nontrivial K] (hpos : 0 < levelmax)
  {es : Trace T (Call K V) (Answer V) (SkipHeap T K V) (Pc T V)}
  {c : Config T (Call K V) (SkipHeap T K V) (Pc T V)}

/-- The skip list, for clients that keep to the keys. -/
abbrev keyed (T K V : Type*) [DecidableEq T] [LinearOrder K] [BoundedOrder K] [Zero V]
    (levelmax : ℕ) :
    Program T (Call K V) (Answer V) (SkipHeap T K V) (Pc T V) (Fin levelmax) :=
  { program T K V levelmax with pre := Keyed }

def upOutline : Outline (keyed T K V levelmax) OnTime (fun _ _ => False) where
  glob es s := Leveled ((keyed T K V levelmax).seen es) s
  loc t W₀ _ s op l := Up levelmax t W₀ s op l
  pair _ _ := True
  pair_symm := id
  init := .initial levelmax
  frame := by
    intro es s e th hg _
    rw [Program.seen, Set.insert_eq_of_mem (hg.listed 0).mem]
    exact hg
  call := by
    intro es s op t hg _ _
    cases op with
    | search k => trivial
    | insert k v | remove k => exact ⟨hg.pub_head _, fun _ j hij hj => by omega⟩
  call_pair := trivial
  tau := by
    intro es c t op l i s' l' hr ht hres hstep hok hw hup
    have hO := (outline hpos fun _ h => h).holds (hr.mono fun _ _ _ _ _ => trivial)
    obtain ⟨hW, -, hc, hat⟩ := hO.loc t op l ht
    have hup' : UpOk levelmax t _ c.shared op (step levelmax (i + 1) t c.shared op l) :=
      up_ok hpos hw hW hat hup hc.1 hc.2 (hok t op l rfl ht) hres
    rw [show step levelmax (i + 1) t c.shared op l = (s', l') from Option.some.inj hstep] at hup'
    exact ⟨hup'.write.leveled hw, hup'.next, fun u op₁ l₁ hu _ hl₁ _ =>
      ⟨Up.step hup'.write hw hl₁ hu, trivial⟩⟩

include hpos

theorem freed_retired (hr : (keyed T K V levelmax).RunIf OnTime es c) {x : Ptr T} (hx : Freed es x) :
    Retired levelmax ((keyed T K V levelmax).seen es) c.shared 0 x := by
  induction hr with
  | init =>
    obtain ⟨p, hp, -⟩ := hx
    cases hp
  | @step es c e c' hr hst hok ih =>
    have hO := (upOutline hpos).holds (hr.step hst hok)
    obtain ⟨p, hp, t, op, r, ht⟩ := hx
    rcases List.mem_cons.mp hp with rfl | hp
    · -- a remove comes to its `ssmem_free`
      exact hO.loc t op _ ht
    · have hret := ih ⟨p, hp, t, op, r, ht⟩
      cases hst with
      | call | ret =>
        rw [Program.seen, Set.insert_eq_of_mem hr.shared_mem_seen]
        exact hret
      | @tau t op l s' l' i ht hres hstep =>
        have hO := (upOutline hpos).holds hr
        have hO' := (outline hpos fun _ h => h).holds (hr.mono fun _ _ _ _ _ => trivial)
        obtain ⟨hW, -, hc, hat⟩ := hO'.loc t op l ht
        have hup : UpOk levelmax t _ c.shared op (step levelmax (i + 1) t c.shared op l) :=
          up_ok hpos hO.glob hW hat (hO.loc t op l ht) hc.1 hc.2 (hok t op l rfl ht) hres
        rw [show step levelmax (i + 1) t c.shared op l = (s', l') from Option.some.inj hstep] at hup
        exact hup.write.retired hO.glob hret

/-- In the runs that meet `ok`, what a remove has freed is linked at no level, at
the free and ever after. -/
def ReclaimsIf (P : Program T (Call K V) (Answer V) (SkipHeap T K V) (Pc T V) (Fin levelmax))
    (ok : Trace T (Call K V) (Answer V) (SkipHeap T K V) (Pc T V) →
      Config T (Call K V) (SkipHeap T K V) (Pc T V) → Event T (Call K V) (Answer V) →
      Config T (Call K V) (SkipHeap T K V) (Pc T V) → Prop) : Prop :=
  ∀ es c, P.RunIf ok es c → ∀ x, Freed es x → ∀ i < levelmax, ¬ LnkAt i c.shared x

/-- **What a remove has freed is not linked at any level, and never is again**,
in the runs in which every CAS that links a node above level 0 finds the
node's pointer as it left it, and links it in front of a node of another key. -/
theorem herlihy_lf_reclaims : ReclaimsIf (keyed T K V levelmax) OnTime :=
  fun _ _ hr _ hx i hi => (freed_retired hpos hr hx).2 i i.zero_le hi

omit hpos in
/-- Three threads, keys 1 to 8, and nodes of up to four levels. -/
theorem herlihy_lf_reclaims_three : ReclaimsIf (keyed (Fin 3) (Fin 10) ℕ 4) OnTime :=
  herlihy_lf_reclaims (by decide)

end runs

/-! ### A node that is linked after it was freed -/

/-- A thread is about to free the node. -/
def frees (x : Ptr T) : Option (Call K V × Pc T V) → Bool
  | some (_, .removeFree nodeDel _) => decide (nodeDel = x)
  | _ => false

omit [BoundedOrder K] in
theorem freed_of_frees {es : Trace T (Call K V) (Answer V) (SkipHeap T K V) (Pc T V)} {x : Ptr T}
    (h : es.any (fun p => frees x (p.2.threads t)) = true) :
    Freed es x := by
  obtain ⟨p, hp, hx⟩ := List.any_eq_true.mp h
  rcases ht : p.2.threads t with _ | ⟨op, l⟩
  · simp [ht, frees] at hx
  · cases l <;> simp only [ht, frees, decide_eq_true_eq, reduceCtorEq] at hx
    subst hx
    exact ⟨p, hp, t, op, _, ht⟩

/-- Thread 0 inserts 5 with two levels and stops before the CAS that links the
node at level 1. Thread 1 removes 5 and frees the node. Thread 0 goes on. -/
def lateLink : List (Move (Fin 2) (Call (Fin 10) ℕ) (Fin 2)) :=
  [.call 0 (.insert 5 7)] ++ List.replicate 14 (.tau 0 1) ++
  [.call 1 (.remove 5)] ++ List.replicate 23 (.tau 1 0) ++ [.tau 0 0]

theorem lateLink_state :
    (Program.play (keyed (Fin 2) (Fin 10) ℕ 2)
      ([], Program.initial (keyed (Fin 2) (Fin 10) ℕ 2)) lateLink).any
      (fun q => q.1.any (fun p => frees (.node 0 0) (p.2.threads 1)) &&
        decide (.node 0 0 ∈ q.2.shared.freed ∧
          (q.2.shared.next .head 1).ptr = .node 0 0)) = true := by
  decide +kernel

/-- **A node can be linked after it was freed.** The CAS of thread 0 in
`lateLink` finds `head->next[1]` as it was, and links the node at level 1. -/
theorem linked_after_free :
    ¬ ∀ es c, (keyed (Fin 2) (Fin 10) ℕ 2).Run es c →
      ∀ x ∈ c.shared.freed, Freed es x → ∀ i < 2, ¬ LnkAt i c.shared x := by
  intro hclaim
  obtain ⟨⟨es, c⟩, hplay, hq⟩ := (Option.any_eq_true _ _).mp lateLink_state
  obtain ⟨hfree, hlink⟩ := Bool.and_eq_true_iff.mp hq
  obtain ⟨hmem, hnext⟩ := of_decide_eq_true hlink
  have hpre : ∀ t op, .call t op ∈ lateLink → Keyed op := by
    intro t op h
    simp only [lateLink, List.mem_append, List.mem_cons, List.mem_replicate, List.not_mem_nil,
      or_false, reduceCtorEq, and_false, Move.call.injEq] at h
    rcases h with ⟨-, rfl⟩ | ⟨-, rfl⟩ <;> exact ⟨by decide, by decide⟩
  have hlnk : LnkAt 1 c.shared (c.shared.next .head 1).ptr :=
    linked_head.next fun h => by cases h
  rw [hnext] at hlnk
  exact hclaim es c (Program.play_run _ .init hpre hplay) _ hmem (freed_of_frees hfree) 1 (by decide)
    hlnk

end SkiplistHerlihyLF

end Ascylib
