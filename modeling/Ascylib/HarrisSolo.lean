/-
# Calls of the Harris lists that run alone

A traversal moves to nodes with greater keys, of which there are finitely many
(`above`). A CAS can fail only on something that was read before the other
threads stopped: in a search that has begun since, the left node still points
to what was read there, so every marked node in the way is unlinked and the
update that follows succeeds (`Current`). So a call begins anew at most once.

Key theorem: `harris_solo`.
-/
import Ascylib.Concur.Solo
import Ascylib.HarrisReclaim
import Mathlib.Data.Set.Card

set_option linter.unusedSectionVars false

namespace Ascylib

open Concur Chain HarrisHeap

variable {T K V : Type*} [DecidableEq T]

namespace HarrisHeap

variable [LinearOrder K] {s : Heap T K V} {x : Ptr T} {k : K}

/-- How many nodes there are with a key greater than `k`. -/
noncomputable def above (s : Heap T K V) (k : K) : ℕ := {y | s.Allocated y ∧ k < s.key y}.ncard

theorem above_setNext (x : Ptr T) (r : Ref T) : above (s.setNext x r) = above s := by
  funext k
  unfold above
  congr 1
  ext y
  rw [Set.mem_ofPred_eq, Heap.key_setNext]
  rfl

theorem above_lt (hfin : {x | s.Allocated x}.Finite) (hx : s.Allocated x) (hk : k < s.key x) :
    above s (s.key x) < above s k := by
  refine Set.ncard_lt_ncard ⟨fun y hy => ⟨hy.1, hk.trans hy.2⟩, fun h => ?_⟩
    (hfin.subset fun y hy => hy.1)
  exact lt_irrefl _ (h ⟨hx, hk⟩ : s.Allocated x ∧ _).2

theorem next_of_not_marked (h : ¬ s.Marked x) : s.next x = (s.succ x).ref := by
  rw [Heap.Marked, Bool.not_eq_true] at h
  rw [Heap.succ, Ptr.ref, ← h]

theorem next_ne_of_cas {s' : Heap T K V} {old new : Ref T} (h : s.cas x old new = (false, s')) :
    s.next x ≠ old := by
  unfold Heap.cas at h
  split at h
  · cases h
  · assumption

theorem count_cas {s' : Heap T K V} {a : Ptr T} {b c : Ref T} {r : Bool}
    (h : s.cas a b c = (r, s')) : s'.count = s.count := by
  unfold Heap.cas at h
  split at h <;> cases h <;> rfl

variable [BoundedOrder K] {S : Set (Heap T K V)}

/-- There are fewer nodes to the right of the next one. -/
theorem Wf.above_succ (w : Wf S s) (hfin : {x | s.Allocated x}.Finite) (hx : Pub S x)
    (hxt : x ≠ .tail) : above s (s.key (s.succ x)) < above s (s.key x) := by
  obtain ⟨h1, h2⟩ := w.next x hx hxt
  exact above_lt hfin (w.listed.alloc _ h1) h2

/-- The same of the node that was next at some moment. -/
theorem Wf.above_past (w : Wf S s) (hfin : {x | s.Allocated x}.Finite) {s₀ : Heap T K V}
    (hs₀ : s₀ ∈ S) (hx : Lnk s₀ x) (hxt : x ≠ .tail) :
    above s (s.key (s₀.succ x)) < above s (s.key x) := by
  have hn : Lnk s₀ (s₀.succ x) := hx.next hxt
  have hk : s₀.key x < s₀.key (s₀.succ x) := (w.past s₀ hs₀).step x hx hxt
  rw [(w.const s₀ hs₀ x hx).1, (w.const s₀ hs₀ _ hn).1] at hk
  exact above_lt hfin (w.listed.alloc _ ⟨s₀, hs₀, hn⟩) hk

end HarrisHeap

namespace LinkedListHarrisOpt

/-- In a search that has begun since the other threads stopped, what the call
has read is still so. -/
def Current (s : Heap T K V) : Pc T V → Prop
  | .testMark left right | .unlinkNext left right | .unlinkCas left right _ =>
    s.next left = right.ref
  | .testKey left right => s.next left = right.ref ∧ ¬ s.Marked right
  | .unlinkFree left right | .advance left right => s.next left = (s.succ right).ref
  | .insertEq left right | .insertAlloc left right | .insertCas left right _ =>
    s.next left = right.ref
  | .insertFree _ => False
  | .removeEq _ right | .removeNext _ right => ¬ s.Marked right
  | .removeCas _ right unmarked => s.next right = unmarked
  | .find | .findLt _ | .findNext _ | .findEq _ | .findMark _ | .findVal _ | .listSearch |
    .removeVal _ _ | .finalNext _ _ _ | .finalCas _ _ _ _ | .finalFree _ _ | .done _ |
    .unchanged _ => True

/-- How far a call is from its end, or from a new search. -/
noncomputable def rank [LinearOrder K] (s : Heap T K V) : Pc T V → ℕ ×ₗ ℕ
  | .find => toLex (10, 0)
  | .findLt node => toLex (9, 2 * above s (s.key node) + 1)
  | .findNext node => toLex (9, 2 * above s (s.key node))
  | .findEq _ => toLex (3, 0)
  | .findMark _ => toLex (2, 0)
  | .findVal _ => toLex (1, 0)
  | .listSearch => toLex (10, 0)
  | .testMark _ right => toLex (9, 5 * above s (s.key right) + 4)
  | .testKey _ right => toLex (9, 5 * above s (s.key right) + 3)
  | .unlinkNext _ right => toLex (9, 5 * above s (s.key right) + 3)
  | .unlinkCas _ right _ => toLex (9, 5 * above s (s.key right) + 2)
  | .unlinkFree _ right => toLex (9, 5 * above s (s.key right) + 1)
  | .advance _ right => toLex (9, 5 * above s (s.key right))
  | .insertEq _ _ => toLex (8, 0)
  | .insertAlloc _ _ => toLex (7, 0)
  | .insertCas _ _ _ => toLex (6, 0)
  | .insertFree _ => toLex (5, 0)
  | .removeEq _ _ => toLex (8, 0)
  | .removeNext _ _ => toLex (7, 0)
  | .removeCas _ _ _ => toLex (6, 0)
  | .removeVal _ _ => toLex (5, 0)
  | .finalNext _ _ _ => toLex (4, 0)
  | .finalCas _ _ _ _ => toLex (3, 0)
  | .finalFree _ _ => toLex (2, 0)
  | .done _ => toLex (0, 0)
  | .unchanged _ => toLex (0, 0)

variable [LinearOrder K] [BoundedOrder K] [Zero V]

/-- A step brings the call nearer to its end, or to a fresh search. -/
def Nearer (s : Heap T K V) (l : Pc T V) (q : Heap T K V × Pc T V) : Prop :=
  (Current s l → Current q.1 q.2) ∧ (rank q.1 q.2 < rank s l ∨ ¬ Current s l ∧ Current q.1 q.2)

section step

variable {t : T} {S W : Set (Heap T K V)} {s : Heap T K V} {op : Call K V} {l : Pc T V}
  (w : Wf S s) (hW : W ⊆ S) (hfin : {x | s.Allocated x}.Finite) (hat : At t S W s op l)

include w hW hfin hat

theorem nearer_find (hl : l = .find ∨ (∃ x, l = .findLt x) ∨ (∃ x, l = .findNext x) ∨
    (∃ x, l = .findEq x) ∨ (∃ x, l = .findMark x) ∨ ∃ x, l = .findVal x) :
    Nearer s l (step t s op l) := by
  rcases hl with rfl | ⟨x, rfl⟩ | ⟨x, rfl⟩ | ⟨x, rfl⟩ | ⟨x, rfl⟩ | ⟨x, rfl⟩
  · exact ⟨id, Or.inl (lex_left (by decide))⟩
  · simp only [step]
    split
    · exact ⟨id, Or.inl (lex_right (Nat.lt_succ_self _))⟩
    · exact ⟨id, Or.inl (lex_left (by decide))⟩
  · obtain ⟨-, hx, hk⟩ := hat
    have hlt := w.above_succ hfin (hx.mono hW) (w.ne_tail_of_lt hk)
    have hr : 2 * above s (s.key (s.succ x)) + 1 < 2 * above s (s.key x) := by omega
    exact ⟨id, Or.inl (lex_right hr)⟩
  · simp only [step]
    split <;> exact ⟨fun _ => trivial, Or.inl (lex_left (by decide))⟩
  · simp only [step]
    split <;> exact ⟨fun _ => trivial, Or.inl (lex_left (by decide))⟩
  · exact ⟨id, Or.inl (lex_left (by decide))⟩

/-- A traversal of `list_search` goes right; a fresh one unlinks what is marked. -/
theorem nearer_search (hl : l = .listSearch ∨ (∃ a b, l = .testMark a b) ∨
    (∃ a b, l = .testKey a b) ∨ (∃ a b, l = .unlinkNext a b) ∨ (∃ a b c, l = .unlinkCas a b c) ∨
    (∃ a b, l = .unlinkFree a b) ∨ ∃ a b, l = .advance a b) : Nearer s l (step t s op l) := by
  rcases hl with rfl | ⟨a, b, rfl⟩ | ⟨a, b, rfl⟩ | ⟨a, b, rfl⟩ | ⟨a, b, c, rfl⟩ | ⟨a, b, rfl⟩ |
    ⟨a, b, rfl⟩
  · exact ⟨fun _ => next_of_not_marked w.head_mark, Or.inl (lex_left (by decide))⟩
  · simp only [step]
    split
    · rename_i hm
      have hm : ¬ s.Marked b := by simpa [isMarkedRef, Heap.Marked] using hm
      exact ⟨fun hf => ⟨hf, hm⟩, Or.inl (lex_right (Nat.lt_succ_self _))⟩
    · exact ⟨id, Or.inl (lex_right (Nat.lt_succ_self _))⟩
  · simp only [step]
    split
    · unfold listSearchRet
      split
      · exact ⟨fun hf => hf.1, Or.inl (lex_left (by decide))⟩
      · exact ⟨fun hf => hf.2, Or.inl (lex_left (by decide))⟩
    · refine ⟨fun hf => next_of_not_marked hf.2, Or.inl (lex_right ?_)⟩
      exact Nat.lt_add_of_pos_right (by decide)
  · exact ⟨id, Or.inl (lex_right (Nat.lt_succ_self _))⟩
  · obtain ⟨-, -, -, hm, hc⟩ := hat
    rcases hcas : s.cas a b.ref c.ref with ⟨⟨⟩, s'⟩
    · simp only [step, hcas]
      have hf := next_ne_of_cas hcas
      rw [Heap.cas_false hcas]
      exact ⟨fun h => absurd h hf, Or.inl (lex_right (Nat.lt_add_of_pos_right (by decide)))⟩
    · simp only [step, hcas]
      obtain ⟨hn, rfl⟩ := Heap.cas_true hcas
      have hab : b ≠ a := fun h => not_marked_of_next hn (h ▸ hm)
      refine ⟨fun _ => ?_, Or.inl ?_⟩
      · show (s.setNext a c.ref).next a = ((s.setNext a c.ref).succ b).ref
        rw [Heap.next_setNext_self, Heap.succ_setNext_of_ne _ _ _ _ hab, hc]
      · refine lex_right ?_
        rw [above_setNext, Heap.key_setNext]
        exact Nat.lt_succ_self _
  · exact ⟨id, Or.inl (lex_right (Nat.lt_succ_self _))⟩
  · obtain ⟨-, -, hb, hbt⟩ := hat
    have hlt := w.above_succ hfin (hb.1.mono hW) hbt
    have hr : 5 * above s (s.key (s.succ b)) + 4 < 5 * above s (s.key b) := by omega
    exact ⟨id, Or.inl (lex_right hr)⟩

omit hW hfin

/-- An update that follows a fresh search succeeds. -/
theorem nearer_update (hl : (∃ a b, l = .insertEq a b) ∨ (∃ a b, l = .insertAlloc a b) ∨
    (∃ a b n, l = .insertCas a b n) ∨ (∃ n, l = .insertFree n) ∨ (∃ a b, l = .removeEq a b) ∨
    (∃ a b, l = .removeNext a b) ∨ (∃ a b c, l = .removeCas a b c) ∨
    ∃ a b c r, l = .finalCas a b c r) : Nearer s l (step t s op l) := by
  rcases hl with ⟨a, b, rfl⟩ | ⟨a, b, rfl⟩ | ⟨a, b, n, rfl⟩ | ⟨n, rfl⟩ | ⟨a, b, rfl⟩ | ⟨a, b, rfl⟩ |
    ⟨a, b, c, rfl⟩ | ⟨a, b, c, r, rfl⟩
  · simp only [step]
    split
    · exact ⟨fun _ => trivial, Or.inl (lex_left (by decide))⟩
    · exact ⟨id, Or.inl (lex_left (by decide))⟩
  · obtain ⟨⟨k, v, rfl⟩, ha, -⟩ := hat
    refine ⟨fun hf => ?_, Or.inl (lex_left (by decide))⟩
    obtain ⟨-, hm, -⟩ := w.listed.allocate t ⟨k, v, b.ref⟩
    exact (congrArg LlSimple.next (hm a ha.1)).trans hf
  · rcases hcas : s.cas a b.ref n.ref with ⟨⟨⟩, s'⟩
    · simp only [step, hcas]
      exact ⟨fun hf => absurd hf (next_ne_of_cas hcas), Or.inl (lex_left (by decide))⟩
    · simp only [step, hcas]
      exact ⟨fun _ => trivial, Or.inl (lex_left (by decide))⟩
  · exact ⟨False.elim, Or.inr ⟨id, trivial⟩⟩
  · simp only [step]
    split
    · exact ⟨fun _ => trivial, Or.inl (lex_left (by decide))⟩
    · exact ⟨id, Or.inl (lex_left (by decide))⟩
  · exact ⟨next_of_not_marked, Or.inl (lex_left (by decide))⟩
  · rcases hcas : s.cas b c (getMarkedRef c) with ⟨⟨⟩, s'⟩
    · have hf := next_ne_of_cas hcas
      simp only [step, hcas]
      exact ⟨fun h => absurd h hf, Or.inr ⟨hf, trivial⟩⟩
    · simp only [step, hcas]
      exact ⟨fun _ => trivial, Or.inl (lex_left (by decide))⟩
  · rcases hcas : s.cas a b.ref c.ref with ⟨⟨⟩, s'⟩ <;> simp only [step, hcas]
    · exact ⟨fun _ => trivial, Or.inl (lex_left (by decide))⟩
    · exact ⟨fun _ => trivial, Or.inl (lex_left (by decide))⟩

/-- **Every step brings a call that runs alone nearer to its end.** -/
theorem nearer (hW : W ⊆ S) (hfin : {x | s.Allocated x}.Finite) (hres : result l = none) :
    Nearer s l (step t s op l) := by
  cases l
  case find | findLt | findNext | findEq | findMark | findVal =>
    exact nearer_find w hW hfin hat (by simp)
  case listSearch | testMark | testKey | unlinkNext | unlinkCas | unlinkFree | advance =>
    exact nearer_search w hW hfin hat (by simp)
  case insertEq | insertAlloc | insertCas | insertFree | removeEq | removeNext | removeCas |
      finalCas => exact nearer_update w hat (by simp)
  case removeVal | finalNext | finalFree => exact ⟨id, Or.inl (lex_left (by decide))⟩
  case done => cases hres
  case unchanged => cases hres

end step

/-- No step of a thread gives nodes to another. -/
theorem count_step {t u : T} (hu : u ≠ t) (s : Heap T K V) (op : Call K V) (l : Pc T V) :
    (step t s op l).1.count u = s.count u := by
  have hcas : ∀ {a : Ptr T} {b c : Ref T} {r s'}, s.cas a b c = (r, s') → s'.count u = s.count u :=
    fun h => congrFun (count_cas h) u
  cases l
  case insertAlloc a b =>
    cases op with
    | insert k v => exact Function.update_of_ne hu _ _
    | _ => rfl
  case unlinkCas | insertCas | removeCas | finalCas =>
    simp only [step]
    split <;> exact hcas ‹_›
  all_goals rfl

theorem solo [Nontrivial K] : { program T K V with pre := Keyed }.Solo := by
  have hC : (code T K V).Correct { program T K V with pre := Keyed } :=
    correct_of_keyed fun _ h => h
  refine Program.solo_of_rank (fun s _ l => Current s l) rank fun {es c t op l} hr ht hres => ?_
  refine ⟨⟨(), _, rfl⟩, fun i s' l' hs => ?_⟩
  have he : step t c.shared op l = (s', l') := Option.some.inj hs
  have hfin : {x | c.shared.Allocated x}.Finite := Memory.run_finite id (fun _ => rfl)
    (fun {i t s op l s' l'} hs u hu => by
      have he : step t s op l = (s', l') := Option.some.inj hs
      have := count_step hu s op l
      rwa [he] at this) hr
  have hn := nearer (hC.wf hr) (hC.at_loc hr ht) (hr.window_subset_seen _ _) hfin hres
  rwa [he] at hn

end LinkedListHarrisOpt

namespace LinkedListHarris

/-- In a search that has begun since the other threads stopped, what the call
has read is still so. -/
def Current (s : Heap T K V) : Pc T V → Prop
  | .scan _ left leftNext t tNext => s.next t = tNext ∧ (tNext.mark = true → s.next left = leftNext.ref)
  | .readNext _ left leftNext _ => s.next left = leftNext.ref
  | .testKey _ left leftNext t tNext => s.next left = leftNext.ref ∧ s.next t = tNext
  | .cas _ left leftNext right => s.next left = leftNext.ref ∧ ¬ s.Marked right
  | .testNull _ left _ right | .testMark _ left _ right | .freeNext _ left _ right _ |
    .free _ left _ right _ _ | .searched _ left right | .removeEq left right |
    .removeNext left right => s.next left = right.ref ∧ ¬ s.Marked right
  | .insertEq left right _ | .insertAlloc left right | .insertNext left right _ |
    .insertCas left right _ => s.next left = right.ref
  | .removeCas left right rightNext => s.next left = right.ref ∧ s.next right = rightNext
  | .removeVal left right _ | .finalCas left right _ _ => s.next left = right.ref
  | .search _ _ _ | .findNull _ | .findKey _ | .findVal _ | .insertFree _ | .finalFree _ _ |
    .done _ | .unchanged _ => True

/-- How far a call is from its end, or from a new search. -/
noncomputable def rank [LinearOrder K] (s : Heap T K V) : Pc T V → ℕ ×ₗ ℕ
  | .search _ _ _ => toLex (20, 0)
  | .scan _ _ _ _ tNext => toLex (19, 3 * above s (s.key tNext.ptr) + 3)
  | .readNext _ _ _ t => toLex (19, 3 * above s (s.key t) + 2)
  | .testKey _ _ _ t _ => toLex (19, 3 * above s (s.key t) + 1)
  | .cas _ _ _ _ => toLex (18, 0)
  | .freeNext _ _ _ _ cur => toLex (17, 2 * above s (s.key cur) + 1)
  | .free _ _ _ _ _ cur => toLex (17, 2 * above s (s.key cur) + 2)
  | .testNull _ _ _ _ => toLex (16, 0)
  | .testMark _ _ _ _ => toLex (15, 0)
  | .searched _ _ _ => toLex (14, 0)
  | .findNull _ | .insertEq _ _ _ | .removeEq _ _ => toLex (13, 0)
  | .findKey _ | .insertAlloc _ _ | .insertNext _ _ _ | .removeNext _ _ => toLex (12, 0)
  | .findVal _ | .insertCas _ _ _ | .removeCas _ _ _ => toLex (11, 0)
  | .insertFree _ | .removeVal _ _ _ => toLex (10, 0)
  | .finalCas _ _ _ _ => toLex (9, 0)
  | .finalFree _ _ => toLex (8, 0)
  | .done _ | .unchanged _ => toLex (0, 0)

variable [LinearOrder K] [BoundedOrder K] [Zero V]

/-- A step brings the call nearer to its end, or to a fresh search. -/
def Nearer (s : Heap T K V) (l : Pc T V) (q : Heap T K V × Pc T V) : Prop :=
  (Current s l → Current q.1 q.2) ∧ (rank q.1 q.2 < rank s l ∨ ¬ Current s l ∧ Current q.1 q.2)

/-- Where the inner loop ends. -/
theorem nearer_compare {s : Heap T K V} {l : Pc T V} {c : Caller T V} {a b x : Ptr T}
    (hf : Current s l → s.next a = b.ref ∧ ¬ s.Marked x)
    (hr : toLex (18, 0) < rank s l) : Nearer s l (s, compare c a b x) := by
  unfold compare
  split
  · rename_i h
    subst h
    exact ⟨hf, Or.inl (lt_trans (lex_left (by decide)) hr)⟩
  · exact ⟨hf, Or.inl hr⟩

section step

variable {t : T} {S W : Set (Heap T K V)} {s : Heap T K V} {op : Call K V} {l : Pc T V}
  {ys : List (Ptr T)} (w : Wf S s) (hW : W ⊆ S) (hfin : {x | s.Allocated x}.Finite)
  (hat : At t S W s op l)

include w hW hfin hat

/-- A traversal goes right. -/
theorem nearer_scan (hl : (∃ c a b, l = .search c a b) ∨ (∃ c a b x r, l = .scan c a b x r) ∨
    (∃ c a b x, l = .readNext c a b x) ∨ ∃ c a b x r, l = .testKey c a b x r) :
    Nearer s l (step t s op l) := by
  rcases hl with ⟨c, a, b, rfl⟩ | ⟨c, a, b, x, r, rfl⟩ | ⟨c, a, b, x, rfl⟩ | ⟨c, a, b, x, r, rfl⟩
  · exact ⟨fun _ => ⟨rfl, fun h => absurd h w.head_mark⟩, Or.inl (lex_left (by decide))⟩
  · obtain ⟨q, m⟩ := r
    -- the left node of the next round, and what follows it
    have hround : ∀ a' b', (Current s (.scan c a b x ⟨q, m⟩) → s.next a' = b'.ref) →
        Nearer s (.scan c a b x ⟨q, m⟩)
          (s, if isNull (s.next q) then compare c a' b' q else .readNext c a' b' q) := by
      intro a' b' hf
      split
      · rename_i hnull
        refine nearer_compare (fun h => ⟨hf h, ?_⟩) (lex_left (by decide))
        unfold isNull at hnull
        simp_all [Heap.Marked]
      · exact ⟨hf, Or.inl (lex_right (Nat.lt_succ_self _))⟩
    cases m
    · exact hround x q fun h => h.1
    · exact hround a b fun h => h.2 rfl
  · obtain ⟨-, hx, hxt, -⟩ := hat
    have hlt := w.above_succ hfin hx hxt
    simp only [step]
    split
    · have hr : 3 * above s (s.key (s.succ x)) + 3 < 3 * above s (s.key x) + 2 := by omega
      exact ⟨fun h => ⟨rfl, fun _ => h⟩, Or.inl (lex_right hr)⟩
    · exact ⟨fun h => ⟨h, rfl⟩, Or.inl (lex_right (Nat.lt_succ_self _))⟩
  · obtain ⟨-, hx, hxt, -, -, -, hm, s₀, hs₀, hl₀, hn, -⟩ := hat
    have hlt := w.above_past hfin (hW hs₀) hl₀ hxt
    rw [Heap.succ, hn] at hlt
    simp only [step]
    split
    · have hr : 3 * above s (s.key r.ptr) + 3 < 3 * above s (s.key x) + 1 := by omega
      exact ⟨fun h => ⟨h.2, fun _ => h.1⟩, Or.inl (lex_right hr)⟩
    · refine nearer_compare (fun h => ⟨h.1, ?_⟩) (lex_left (by decide))
      rw [Heap.Marked, h.2, hm]
      decide

omit hat hW in
/-- The stretch is unlinked and freed, and the right node is looked at once more. -/
theorem nearer_unlink (hd : debt s l ys) (hp : ∀ x ∈ ys, Pub S x)
    (hl : (∃ c a b x, l = .cas c a b x) ∨
      (∃ c a b x y, l = .freeNext c a b x y) ∨ (∃ c a b x y z, l = .free c a b x y z) ∨
      (∃ c a b x, l = .testNull c a b x) ∨ (∃ c a b x, l = .testMark c a b x) ∨
      ∃ c a x, l = .searched c a x) : Nearer s l (step t s op l) := by
  rcases hl with ⟨c, a, b, x, rfl⟩ | ⟨c, a, b, x, y, rfl⟩ | ⟨c, a, b, x, y, z, rfl⟩ |
    ⟨c, a, b, x, rfl⟩ | ⟨c, a, b, x, rfl⟩ | ⟨c, a, x, rfl⟩
  · rcases hcas : s.cas a b.ref x.ref with ⟨⟨⟩, s'⟩
    · have hf := next_ne_of_cas hcas
      simp only [step, hcas]
      exact ⟨fun h => absurd h.1 hf, Or.inr ⟨fun h => hf h.1, trivial⟩⟩
    · simp only [step, hcas]
      obtain ⟨-, rfl⟩ := Heap.cas_true hcas
      refine ⟨fun h => ⟨Heap.next_setNext_self _ _ _, fun hm => ?_⟩, Or.inl (lex_left (by decide))⟩
      by_cases hxa : x = a
      · subst hxa
        rw [Heap.Marked, Heap.next_setNext_self] at hm
        cases hm
      · exact h.2 ((marked_setNext_of_ne hxa).mp hm)
  · obtain ⟨hpath, hne⟩ := hd
    have hlt : above s (s.key (s.succ y)) < above s (s.key y) := by
      rcases ys with _ | ⟨y', zs⟩
      · exact absurd rfl hne
      · obtain ⟨rfl, hm, -⟩ := hpath
        exact w.above_succ hfin (hp y List.mem_cons_self) fun h => w.tail_mark (h ▸ hm)
    have hr : 2 * above s (s.key (s.succ y)) + 2 < 2 * above s (s.key y) + 1 := by omega
    exact ⟨id, Or.inl (lex_right hr)⟩
  · simp only [step]
    split
    · exact ⟨id, Or.inl (lex_right (Nat.lt_succ_self _))⟩
    · exact ⟨id, Or.inl (lex_left (by decide))⟩
  · simp only [step]
    split
    · exact ⟨id, Or.inl (lex_left (by decide))⟩
    · exact ⟨id, Or.inl (lex_left (by decide))⟩
  · simp only [step]
    split
    · rename_i hm
      exact ⟨fun h => absurd hm h.2, Or.inr ⟨fun h => h.2 hm, trivial⟩⟩
    · exact ⟨id, Or.inl (lex_left (by decide))⟩
  · cases c with
    | find => exact ⟨fun _ => trivial, Or.inl (lex_left (by decide))⟩
    | insert n => exact ⟨fun h => h.1, Or.inl (lex_left (by decide))⟩
    | remove => exact ⟨id, Or.inl (lex_left (by decide))⟩
    | unlink r => exact ⟨fun _ => trivial, Or.inl (lex_left (by decide))⟩

/-- An update that follows a fresh search succeeds. -/
theorem nearer_update (hl : (∃ a b n, l = .insertEq a b n) ∨ (∃ a b, l = .insertAlloc a b) ∨
    (∃ a b n, l = .insertNext a b n) ∨ (∃ a b n, l = .insertCas a b n) ∨
    (∃ a b, l = .removeEq a b) ∨ (∃ a b, l = .removeNext a b) ∨ (∃ a b c, l = .removeCas a b c) ∨
    ∃ a b c r, l = .finalCas a b c r) : Nearer s l (step t s op l) := by
  rcases hl with ⟨a, b, n, rfl⟩ | ⟨a, b, rfl⟩ | ⟨a, b, n, rfl⟩ | ⟨a, b, n, rfl⟩ | ⟨a, b, rfl⟩ |
    ⟨a, b, rfl⟩ | ⟨a, b, c, rfl⟩ | ⟨a, b, c, r, rfl⟩
  · simp only [step]
    split
    · split <;> exact ⟨fun _ => trivial, Or.inl (lex_left (by decide))⟩
    · split <;> exact ⟨id, Or.inl (lex_left (by decide))⟩
  · obtain ⟨⟨k, v, rfl⟩, ha, -⟩ := hat
    refine ⟨fun hf => ?_, Or.inl (lex_left (by decide))⟩
    obtain ⟨-, hm, -⟩ := w.listed.allocate t ⟨k, v, b.ref⟩
    exact (congrArg LlSimple.next (hm a ha.1)).trans hf
  · obtain ⟨k, v, q, -, ha, -, -, hn⟩ := hat
    refine ⟨fun hf => ?_, Or.inl (lex_left (by decide))⟩
    have hne : a ≠ n := fun h => hn.1 (h ▸ ha.1)
    exact (Heap.next_setNext_of_ne _ _ _ _ hne).trans hf
  · rcases hcas : s.cas a b.ref n.ref with ⟨⟨⟩, s'⟩
    · have hf := next_ne_of_cas hcas
      simp only [step, hcas]
      exact ⟨fun h => absurd h hf, Or.inr ⟨hf, trivial⟩⟩
    · simp only [step, hcas]
      exact ⟨fun _ => trivial, Or.inl (lex_left (by decide))⟩
  · simp only [step]
    split
    · exact ⟨fun _ => trivial, Or.inl (lex_left (by decide))⟩
    · exact ⟨id, Or.inl (lex_left (by decide))⟩
  · simp only [step]
    split
    · exact ⟨fun h => ⟨h.1, rfl⟩, Or.inl (lex_left (by decide))⟩
    · rename_i hm
      have hm : s.Marked b := by simpa [isMarkedRef, Heap.Marked] using hm
      exact ⟨fun h => absurd hm h.2, Or.inr ⟨fun h => h.2 hm, trivial⟩⟩
  · obtain ⟨-, ha, -, hk, -⟩ := hat
    rcases hcas : s.cas b c (getMarkedRef c) with ⟨⟨⟩, s'⟩
    · have hf := next_ne_of_cas hcas
      simp only [step, hcas]
      exact ⟨fun h => absurd h.2 hf, Or.inr ⟨fun h => hf h.2, trivial⟩⟩
    · simp only [step, hcas]
      obtain ⟨-, rfl⟩ := Heap.cas_true hcas
      have hne : a ≠ b := fun h => absurd ha.2 (not_lt.mpr (h ▸ hk).ge)
      exact ⟨fun h => (Heap.next_setNext_of_ne _ _ _ _ hne).trans h.1,
        Or.inl (lex_left (by decide))⟩
  · rcases hcas : s.cas a b.ref c with ⟨⟨⟩, s'⟩
    · have hf := next_ne_of_cas hcas
      simp only [step, hcas]
      exact ⟨fun h => absurd h hf, Or.inr ⟨hf, trivial⟩⟩
    · simp only [step, hcas]
      exact ⟨fun _ => trivial, Or.inl (lex_left (by decide))⟩

/-- **Every step brings a call that runs alone nearer to its end.** -/
theorem nearer (hd : debt s l ys) (hp : ∀ x ∈ ys, Pub S x) (hres : result l = none) :
    Nearer s l (step t s op l) := by
  cases l
  case search | scan | readNext | testKey => exact nearer_scan w hW hfin hat (by simp)
  case cas | freeNext | free | testNull | testMark | searched =>
    exact nearer_unlink w hfin hd hp (by simp)
  case insertEq | insertAlloc | insertNext | insertCas | removeEq | removeNext | removeCas |
      finalCas => exact nearer_update w hW hfin hat (by simp)
  case findNull | findKey =>
    simp only [step]
    split <;> exact ⟨fun _ => trivial, Or.inl (lex_left (by decide))⟩
  case findVal | insertFree | finalFree => exact ⟨fun _ => trivial, Or.inl (lex_left (by decide))⟩
  case removeVal => exact ⟨id, Or.inl (lex_left (by decide))⟩
  case done => cases hres
  case unchanged => cases hres

end step

/-- No step of a thread gives nodes to another. -/
theorem count_step {t u : T} (hu : u ≠ t) (s : Heap T K V) (op : Call K V) (l : Pc T V) :
    (step t s op l).1.count u = s.count u := by
  have hcas : ∀ {a : Ptr T} {b c : Ref T} {r s'}, s.cas a b c = (r, s') → s'.count u = s.count u :=
    fun h => congrFun (count_cas h) u
  cases l
  case insertAlloc a b =>
    cases op with
    | insert k v => exact Function.update_of_ne hu _ _
    | _ => rfl
  case cas | insertCas | removeCas | finalCas =>
    simp only [step]
    split <;> exact hcas ‹_›
  case searched c a x => cases c <;> rfl
  all_goals rfl

theorem solo [Nontrivial K] : { program T K V with pre := Keyed }.Solo := by
  have hC : (code T K V).Correct { program T K V with pre := Keyed } :=
    correct_of_keyed fun _ h => h
  refine Program.solo_of_rank (fun s _ l => Current s l) rank fun {es c t op l} hr ht hres => ?_
  refine ⟨⟨(), _, rfl⟩, fun i s' l' hs => ?_⟩
  have he : step t c.shared op l = (s', l') := Option.some.inj hs
  have hfin : {x | c.shared.Allocated x}.Finite := Memory.run_finite id (fun _ => rfl)
    (fun {i t s op l s' l'} hs u hu => by
      have he : step t s op l = (s', l') := Option.some.inj hs
      have := count_step hu s op l
      rwa [he] at this) hr
  obtain ⟨ys, hd, hp⟩ := (accounts Keyed).owed hC hr ht
  have hn := nearer (hC.wf hr) (hr.window_subset_seen _ _) hfin (hC.at_loc hr ht) hd hp hres
  rwa [he] at hn

end LinkedListHarris

/-- **Every call of the two Harris lists returns if its thread goes on alone**,
wherever the others have stopped. -/
theorem harris_solo [Nontrivial K] [LinearOrder K] [BoundedOrder K] [Zero V] :
    { LinkedListHarris.program T K V with pre := Keyed }.Solo ∧
      { LinkedListHarrisOpt.program T K V with pre := Keyed }.Solo :=
  ⟨LinkedListHarris.solo, LinkedListHarrisOpt.solo⟩

/-- Three threads, and keys 1 to 8. -/
theorem harris_solo_three :
    { LinkedListHarris.program (Fin 3) (Fin 10) ℕ with pre := Keyed }.Solo ∧
      { LinkedListHarrisOpt.program (Fin 3) (Fin 10) ℕ with pre := Keyed }.Solo :=
  harris_solo

end Ascylib
