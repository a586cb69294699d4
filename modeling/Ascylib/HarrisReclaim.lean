/-
# Every unlinked node of the Harris lists is freed once

`linkedlist_harris_opt.h` frees a node right after the CAS that unlinked it,
in `physical_delete_right`; `linkedlist_harris.h` frees the whole stretch that
a CAS of `harris_search` unlinked, node by node, or the one node of the last
CAS of `harris_remove`. Both give back a node that was never linked.

Key theorem: `harris_reclaims`.
-/
import Ascylib.HarrisLedger
import Ascylib.LinkedListHarris
import Ascylib.LinkedListHarrisOpt

set_option linter.unusedSectionVars false

namespace Ascylib

open Concur Chain HarrisHeap

variable {T K V : Type*} [DecidableEq T] [LinearOrder K] [BoundedOrder K] [Zero V]

namespace LinkedListHarrisOpt

/-- The unlinked nodes that a call is going to free. -/
def debt (_ : Heap T K V) : Pc T V → List (Ptr T) → Prop
  | .unlinkFree _ right, ys => ys = [right]
  | .finalFree right _, ys => ys = [right]
  | _, ys => ys = []

/-- A node that a call has allocated and not linked. -/
def hand : Pc T V → Option (Ptr T)
  | .insertCas _ _ node => some node
  | .insertFree node => some node
  | _ => none

section step

variable {t : T} {S W : Set (Heap T K V)} {s : Heap T K V} {op : Call K V} {l : Pc T V}
  {ys : List (Ptr T)} (w : Wf S s) (h : At t S W s op l) (hd : debt s l ys)

include w h hd

/-- What a step books. -/
theorem entry (hr : result l = none) : ∃ ys', debt (step t s op l).1 (step t s op l).2 ys' ∧
    Ledger.Entry s.Allocated (Lnk s) s.freed ys (hand l) (step t s op l).1.Allocated
      (Lnk (step t s op l).1) (step t s op l).1.freed ys' (hand (step t s op l).2) := by
  cases l
  case find | findNext | findVal | listSearch | unlinkNext | advance | removeNext | removeVal |
      finalNext =>
    obtain rfl : ys = [] := hd
    exact ⟨[], rfl, entry_read s [] none⟩
  case findLt | findEq | findMark | testMark | insertEq | removeEq =>
    obtain rfl : ys = [] := hd
    simp only [step]
    split <;> exact ⟨[], rfl, entry_read s [] none⟩
  case testKey a b =>
    obtain rfl : ys = [] := hd
    simp only [step, listSearchRet]
    split
    · split <;> exact ⟨[], rfl, entry_read s [] none⟩
    · exact ⟨[], rfl, entry_read s [] none⟩
  case unlinkCas a b c =>
    obtain rfl : ys = [] := hd
    obtain ⟨-, h2, -, h4, h5⟩ := h
    rcases hc : s.cas a b.ref c.ref with ⟨⟨⟩, s'⟩
    · simp only [step, hc]
      rw [Heap.cas_false hc]
      exact ⟨[], rfl, entry_read s [] none⟩
    · simp only [step, hc]
      obtain ⟨hn, rfl⟩ := Heap.cas_true hc
      exact ⟨[b], rfl, unlink_one w h2.1 (w.ne_tail_of_lt h2.2) hn h4 h5⟩
  case unlinkFree a b =>
    obtain rfl : ys = [b] := hd
    exact ⟨[], rfl, .free b (fun _ hx => hx) fun _ => Iff.rfl⟩
  case insertAlloc a b =>
    obtain rfl : ys = [] := hd
    obtain ⟨⟨k, v, rfl⟩, -⟩ := h
    exact ⟨[], rfl, entry_allocate w t k v b []⟩
  case insertCas a b n =>
    obtain rfl : ys = [] := hd
    obtain ⟨k, v, rfl, h2, -, -, h5⟩ := h
    rcases hc : s.cas a b.ref n.ref with ⟨⟨⟩, s'⟩
    · simp only [step, hc]
      rw [Heap.cas_false hc]
      exact ⟨[], rfl, entry_read s [] _⟩
    · simp only [step, hc]
      obtain ⟨hn, rfl⟩ := Heap.cas_true hc
      obtain ⟨h6, h7, i, rfl, -⟩ := h5
      refine ⟨[], rfl, .link _ (fun _ hx => hx) (link_lnk w hn h2.1 (w.ne_tail_of_lt h2.2) h6 ?_)⟩
      simp [Heap.next, h7]
  case insertFree n =>
    obtain rfl : ys = [] := hd
    exact ⟨[], rfl, .discard n (fun _ hx => hx) fun _ => Iff.rfl⟩
  case removeCas a b c =>
    obtain rfl : ys = [] := hd
    obtain ⟨-, -, h3, -, h5⟩ := h
    rcases hc : s.cas b c (getMarkedRef c) with ⟨⟨⟩, s'⟩
    · simp only [step, hc]
      rw [Heap.cas_false hc]
      exact ⟨[], rfl, entry_read s [] none⟩
    · simp only [step, hc]
      obtain ⟨hn, rfl⟩ := Heap.cas_true hc
      obtain ⟨q, m⟩ := c
      obtain rfl : m = false := h5
      exact ⟨[], rfl, .none (fun _ hx => hx) (mark_lnk hn)⟩
  case finalCas a b c r =>
    obtain rfl : ys = [] := hd
    obtain ⟨h2, -, h4, h5⟩ := h
    rcases hc : s.cas a b.ref c.ref with ⟨⟨⟩, s'⟩
    · simp only [step, hc]
      rw [Heap.cas_false hc]
      exact ⟨[], rfl, entry_read s [] none⟩
    · simp only [step, hc]
      obtain ⟨hn, rfl⟩ := Heap.cas_true hc
      exact ⟨[b], rfl, unlink_one w h2.1 (w.ne_tail_of_lt h2.2) hn h4 h5⟩
  case finalFree b r =>
    obtain rfl : ys = [b] := hd
    exact ⟨[], rfl, .free b (fun _ hx => hx) fun _ => Iff.rfl⟩
  case done => cases hr
  case unchanged => cases hr

end step

def accounts (pre : Call K V → Prop) : Accounts (code T K V) { program T K V with pre := pre } where
  debt := debt
  hand := hand
  start s op := by cases op <;> exact ⟨rfl, rfl⟩
  ret hres hd := by
    rename_i l _ _
    cases l <;> first | exact ⟨hd, rfl⟩ | cases hres
  stable _ _ hd := hd
  step := by
    intro t S W s op l s' l' ys w _ hat hres hstep _ hd
    have he : step t s op l = (s', l') := Option.some.inj hstep
    have := entry w hat hd hres
    rwa [he] at this

end LinkedListHarrisOpt

namespace LinkedListHarris

/-- The unlinked nodes that a call is going to free. -/
def debt (s : Heap T K V) : Pc T V → List (Ptr T) → Prop
  | .cas _ _ leftNext right, ys => ys = [] ∧ leftNext ≠ right
  | .freeNext _ _ _ right cur, ys => Path s cur ys right ∧ ys ≠ []
  | .free _ _ _ right nodeToFree cur, ys => ∃ zs, ys = nodeToFree :: zs ∧ Path s cur zs right
  | .finalFree right _, ys => ys = [right]
  | _, ys => ys = []

/-- A `newnode` kept from an earlier round. -/
def Caller.hand : Caller T V → Option (Ptr T)
  | .insert newnode => if newnode = .null then none else some newnode
  | _ => none

/-- A node that a call has allocated and not linked. -/
def hand : Pc T V → Option (Ptr T)
  | .search c _ _ => c.hand
  | .scan c _ _ _ _ => c.hand
  | .readNext c _ _ _ => c.hand
  | .testKey c _ _ _ _ => c.hand
  | .testNull c _ _ _ => c.hand
  | .testMark c _ _ _ => c.hand
  | .cas c _ _ _ => c.hand
  | .freeNext c _ _ _ _ => c.hand
  | .free c _ _ _ _ _ => c.hand
  | .searched c _ _ => c.hand
  | .insertEq _ _ newnode => (Caller.insert newnode : Caller T V).hand
  | .insertFree newnode => some newnode
  | .insertNext _ _ newnode => some newnode
  | .insertCas _ _ newnode => some newnode
  | _ => none

theorem MarkedPath.path {s : Heap T K V} {a b : Ptr T} (h : MarkedPath s a b) : ∃ ys, Path s a ys b := by
  induction h with
  | refl => exact ⟨[], rfl⟩
  | @tail y z _ hyz ih =>
    obtain ⟨ys, hys⟩ := ih
    exact ⟨ys ++ [y], hys.append_mark hyz.1 hyz.2⟩

section step

variable {me : T} {S W : Set (Heap T K V)} {s : Heap T K V} {op : Call K V} {l : Pc T V}
  {ys : List (Ptr T)}

/-- What a step books. -/
def Books (s : Heap T K V) (ys : List (Ptr T)) (n : Option (Ptr T)) (q : Heap T K V × Pc T V) : Prop :=
  ∃ ys', debt q.1 q.2 ys' ∧
    Ledger.Entry s.Allocated (Lnk s) s.freed ys n q.1.Allocated (Lnk q.1) q.1.freed ys' (hand q.2)

/-- A step that only reads. -/
theorem Books.read {l' : Pc T V} {n : Option (Ptr T)} (hd : debt s l' []) (hn : hand l' = n) :
    Books s [] n (s, l') := ⟨[], hd, hn ▸ entry_read s [] n⟩

theorem books_compare (c : Caller T V) (left leftNext right : Ptr T) :
    Books s [] c.hand (s, compare c left leftNext right) := by
  unfold compare
  by_cases he : leftNext = right
  · rw [if_pos he]
    exact .read rfl rfl
  · rw [if_neg he]
    exact .read ⟨rfl, he⟩ rfl

variable (w : Wf S s) (hW : W ⊆ S)

include w hW

theorem books_search {c : Caller T V} (h : At me S W s op l) (hd : debt s l ys)
    (hp : ∀ x ∈ ys, Pub S x)
    (hl : (∃ a b, l = .search c a b) ∨ (∃ a b x r, l = .scan c a b x r) ∨
      (∃ a b x, l = .readNext c a b x) ∨ (∃ a b x r, l = .testKey c a b x r) ∨
      (∃ a b x, l = .testNull c a b x) ∨ (∃ a b x, l = .testMark c a b x) ∨
      (∃ a b x, l = .cas c a b x) ∨ (∃ a b x y, l = .freeNext c a b x y) ∨
      ∃ a b x y z, l = .free c a b x y z) : Books s ys (hand l) (step me s op l) := by
  rcases hl with ⟨a, b, rfl⟩ | ⟨a, b, x, r, rfl⟩ | ⟨a, b, x, rfl⟩ | ⟨a, b, x, r, rfl⟩ |
    ⟨a, b, x, rfl⟩ | ⟨a, b, x, rfl⟩ | ⟨a, b, x, rfl⟩ | ⟨a, b, x, y, rfl⟩ | ⟨a, b, x, y, z, rfl⟩
  · obtain rfl : ys = [] := hd
    exact .read rfl rfl
  · obtain rfl : ys = [] := hd
    simp only [step]
    split
    · exact books_compare c _ _ _
    · exact .read rfl rfl
  · obtain rfl : ys = [] := hd
    simp only [step]
    split <;> exact .read rfl rfl
  · obtain rfl : ys = [] := hd
    simp only [step]
    split
    · exact .read rfl rfl
    · exact books_compare c _ _ _
  · obtain rfl : ys = [] := hd
    simp only [step]
    split <;> exact .read rfl rfl
  · obtain rfl : ys = [] := hd
    simp only [step]
    split <;> exact .read rfl rfl
  · obtain ⟨rfl, hne⟩ := hd
    obtain ⟨-, -, -, h4, h5⟩ := h
    rcases hc : s.cas a b.ref x.ref with ⟨⟨⟩, s'⟩
    · simp only [step, hc]
      rw [Heap.cas_false hc]
      exact .read rfl rfl
    · simp only [step, hc]
      obtain ⟨hn, rfl⟩ := Heap.cas_true hc
      obtain ⟨ys, hpath⟩ := h5.path
      have hlt := w.ne_tail_of_lt h4.1
      have hpa := (h4.pub w hW).1
      obtain ⟨h6, h7, h8⟩ := hpath.unlink w hpa hlt hn
      have hb : Lnk s b := succ_of_next hn ▸ (w.lnk_of_next hpa hn).next hlt
      have hkeys := (hpath.lnk w hb).2.2.2
      refine ⟨ys, ⟨?_, ?_⟩, .unlink ys (fun _ hx => hx) h6 h7 h8⟩
      · -- the left node is not on the stretch
        refine hpath.congr fun y hy => ?_
        refine Heap.mem_setNext_of_ne s a y _ ?_
        rintro rfl
        have h9 := w.sorted.step y (w.lnk_of_next hpa hn) hlt
        rw [succ_of_next hn] at h9
        exact absurd ((hkeys y).mp hy).2.1 (not_le.mpr h9)
      · rintro rfl
        exact hne hpath
  · obtain ⟨hpath, hne⟩ := hd
    rcases ys with _ | ⟨y', zs⟩
    · exact absurd rfl hne
    · obtain ⟨rfl, -, h2⟩ := hpath
      exact ⟨y :: zs, ⟨zs, rfl, h2⟩, entry_read s _ _⟩
  · obtain ⟨zs, rfl, hpath⟩ := hd
    have hzs : ∀ u ∈ zs, Pub S u := fun u hu => hp u (List.mem_cons_of_mem _ hu)
    have hpath' : Path (s.ssmemFree y) z zs x := hpath.congr fun _ _ => rfl
    refine ⟨zs, ?_, ?_⟩
    · simp only [step]
      by_cases he : z ≠ x
      · rw [if_pos he]
        refine ⟨hpath', ?_⟩
        rintro rfl
        exact he hpath
      · rw [if_neg he]
        by_contra hne
        have := (hpath.key_le w hzs).2 hne
        rw [not_not.mp he] at this
        exact lt_irrefl _ this
    · have : hand (step me s op (.free c a b x y z)).2 = c.hand := by
        simp only [step]
        split <;> rfl
      rw [this]
      exact .free y (fun _ hx => hx) fun _ => Iff.rfl

theorem books_update (h : At me S W s op l) (hd : debt s l ys)
    (hl : (∃ c a b, l = .searched c a b) ∨ (∃ a b n, l = .insertEq a b n) ∨ (∃ n, l = .insertFree n) ∨
      (∃ a b, l = .insertAlloc a b) ∨ (∃ a b n, l = .insertNext a b n) ∨
      (∃ a b n, l = .insertCas a b n) ∨ (∃ a b, l = .removeNext a b) ∨
      (∃ a b c, l = .removeCas a b c) ∨ (∃ a b c r, l = .finalCas a b c r) ∨
      ∃ b r, l = .finalFree b r) : Books s ys (hand l) (step me s op l) := by
  rcases hl with ⟨c, a, b, rfl⟩ | ⟨a, b, n, rfl⟩ | ⟨n, rfl⟩ | ⟨a, b, rfl⟩ | ⟨a, b, n, rfl⟩ |
    ⟨a, b, n, rfl⟩ | ⟨a, b, rfl⟩ | ⟨a, b, c, rfl⟩ | ⟨a, b, c, r, rfl⟩ | ⟨b, r, rfl⟩
  · obtain rfl : ys = [] := hd
    cases c <;> exact .read rfl rfl
  · obtain rfl : ys = [] := hd
    by_cases hn : n = .null
    · simp only [step, hn, hand, Caller.hand, ne_eq, not_true_eq_false, if_true, if_false]
      split <;> exact .read rfl rfl
    · simp only [step, hn, hand, Caller.hand, ne_eq, not_false_eq_true, if_true, if_false]
      split <;> exact .read rfl rfl
  · obtain rfl : ys = [] := hd
    exact ⟨[], rfl, .discard n (fun _ hx => hx) fun _ => Iff.rfl⟩
  · obtain rfl : ys = [] := hd
    obtain ⟨⟨k, v, rfl⟩, -⟩ := h
    exact ⟨[], rfl, entry_allocate w me k v b []⟩
  · obtain rfl : ys = [] := hd
    obtain ⟨k, v, q, rfl, -, -, -, h5⟩ := h
    obtain ⟨h6, -, i, rfl, -⟩ := h5
    have hmem : ∀ x, Pub S x → (s.setNext (.node me i) b.ref).mem x = s.mem x := fun x hx =>
      Heap.mem_setNext_of_ne s _ x _ fun he => h6 (he ▸ hx)
    have hsame : (view T K V).Same S s (s.setNext (.node me i) b.ref) :=
      NodeView.same_of_mem hmem fun _ => le_rfl
    exact ⟨[], rfl, .none (fun _ hx => hx) fun x => hsame.lnk w.listed x⟩
  · obtain rfl : ys = [] := hd
    obtain ⟨k, v, rfl, h2, -, -, h5⟩ := h
    obtain ⟨h6, h7, i, rfl, -⟩ := h5
    rcases hc : s.cas a b.ref (Ptr.node me i).ref with ⟨⟨⟩, s'⟩
    · simp only [step, hc]
      rw [Heap.cas_false hc]
      exact .read rfl rfl
    · simp only [step, hc]
      obtain ⟨hn, rfl⟩ := Heap.cas_true hc
      refine ⟨[], rfl, .link _ (fun _ hx => hx) (link_lnk w hn h2.1 (w.ne_tail_of_lt h2.2) h6 ?_)⟩
      simp [Heap.next, h7]
  · obtain rfl : ys = [] := hd
    simp only [step]
    split <;> exact .read rfl rfl
  · obtain rfl : ys = [] := hd
    obtain ⟨-, -, -, -, h5⟩ := h
    rcases hc : s.cas b c (getMarkedRef c) with ⟨⟨⟩, s'⟩
    · simp only [step, hc]
      rw [Heap.cas_false hc]
      exact .read rfl rfl
    · simp only [step, hc]
      obtain ⟨hn, rfl⟩ := Heap.cas_true hc
      obtain ⟨q, m⟩ := c
      obtain rfl : m = false := h5
      exact ⟨[], rfl, .none (fun _ hx => hx) (mark_lnk hn)⟩
  · obtain rfl : ys = [] := hd
    obtain ⟨h2, -, h4, h5, h6⟩ := h
    have hc' : c = c.ptr.ref := by rw [Ptr.ref, ← h6]
    rcases hc : s.cas a b.ref c with ⟨⟨⟩, s'⟩
    · simp only [step, hc]
      rw [Heap.cas_false hc]
      exact .read rfl rfl
    · simp only [step, hc]
      obtain ⟨hn, rfl⟩ := Heap.cas_true hc
      rw [hc']
      exact ⟨[b], rfl, unlink_one w h2.1 (w.ne_tail_of_lt h2.2) hn h4 h5⟩
  · obtain rfl : ys = [b] := hd
    exact ⟨[], rfl, .free b (fun _ hx => hx) fun _ => Iff.rfl⟩

/-- What a step books. -/
theorem books (h : At me S W s op l) (hd : debt s l ys) (hp : ∀ x ∈ ys, Pub S x)
    (hr : result l = none) : Books s ys (hand l) (step me s op l) := by
  cases l
  case search c _ _ | scan c _ _ _ _ | readNext c _ _ _ | testKey c _ _ _ _ | testNull c _ _ _ |
      testMark c _ _ _ | cas c _ _ _ | freeNext c _ _ _ _ | free c _ _ _ _ _ =>
    exact books_search (c := c) w hW h hd hp (by simp)
  case searched | insertEq | insertFree | insertAlloc | insertNext | insertCas | removeNext |
      removeCas | finalCas | finalFree =>
    exact books_update w hW h hd (by simp)
  case findNull | findKey | removeEq =>
    obtain rfl : ys = [] := hd
    simp only [step]
    split <;> exact .read rfl rfl
  case findVal | removeVal =>
    obtain rfl : ys = [] := hd
    exact .read rfl rfl
  case done => cases hr
  case unchanged => cases hr

end step

def accounts (pre : Call K V → Prop) : Accounts (code T K V) { program T K V with pre := pre } where
  debt := debt
  hand := hand
  start s op := by cases op <;> exact ⟨rfl, rfl⟩
  ret hres hd := by
    rename_i l _ _
    cases l <;> first | exact ⟨hd, rfl⟩ | cases hres
  stable hk hp hd := by
    rename_i l _
    cases l with
    | freeNext c a b x y => exact ⟨hd.1.step hp hk, hd.2⟩
    | free c a b x y z =>
      obtain ⟨zs, rfl, h2⟩ := hd
      exact ⟨zs, rfl, h2.step (fun u hu => hp u (List.mem_cons_of_mem _ hu)) hk⟩
    | _ => exact hd
  step := by
    intro t S W s op l s' l' ys w hW hat hres hstep hp hd
    have he : step t s op l = (s', l') := Option.some.inj hstep
    have := books w hW hat hd hp hres
    rwa [he] at this

end LinkedListHarris

/-- **The two Harris lists free every unlinked node once**, whatever values
are inserted. A published node is freed at most once, after it was unlinked,
and is never linked again; with no call running every published node that is
not linked has been freed. -/
theorem harris_reclaims [Nontrivial K] :
    Reclaims { LinkedListHarris.program T K V with pre := Keyed } ∧
      Reclaims { LinkedListHarrisOpt.program T K V with pre := Keyed } :=
  ⟨(LinkedListHarris.accounts Keyed).reclaims (LinkedListHarris.correct_of_keyed fun _ h => h),
    (LinkedListHarrisOpt.accounts Keyed).reclaims (LinkedListHarrisOpt.correct_of_keyed fun _ h => h)⟩

/-- Three threads, and keys 1 to 8. -/
theorem harris_reclaims_three :
    Reclaims { LinkedListHarris.program (Fin 3) (Fin 10) ℕ with pre := Keyed } ∧
      Reclaims { LinkedListHarrisOpt.program (Fin 3) (Fin 10) ℕ with pre := Keyed } :=
  harris_reclaims

end Ascylib
