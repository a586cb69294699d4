/-
# The sequential list

`src/algorithms/linkedlist_seq.h`, for one thread. A loop that goes on for more
rounds than there are nodes never ends, so that is where the model gives up.

Key theorem: `LinkedListSeq.call_ok`.
-/
import Ascylib.LlSimple
import Ascylib.SeqSearch

set_option linter.unusedSectionVars false

namespace Ascylib

open Concur

namespace LinkedListSeq

variable {K V : Type*} [LinearOrder K] [Zero V]

/-- The rounds that a loop over all nodes takes. -/
def rounds (s : Heap Unit K V) : ℕ := s.count () + 1

/-- `curr = head; next = curr->next; while (next->key < key) ...` -/
def find (s : Heap Unit K V) (key : K) : Option (Ptr Unit × Ptr Unit) :=
  scan s.succ (fun x => s.key x < key) (rounds s) .head (s.succ .head)

def search (s : Heap Unit K V) (key : K) : Option V :=
  (find s key).map fun (_, next) => if key = s.key next then s.val next else 0

def insert (s : Heap Unit K V) (key : K) (val : V) : Option (Heap Unit K V × Bool) :=
  (find s key).map fun (curr, next) =>
    if key = s.key next then (s, false)
    else
      let (s', newnode) := s.allocateLlSimple () key val next
      (s'.setNext curr newnode.ref, true)

/-- `ll_simple_release(next)` at the end. -/
def remove (s : Heap Unit K V) (key : K) : Option (Heap Unit K V × V) :=
  (find s key).map fun (curr, next) =>
    if key = s.key next then ((s.setNext curr (s.next next)).ssmemFree next, s.val next)
    else (s, 0)

/-- `while (tmp->next != NULL) { count++; tmp = tmp->next; }` -/
def countFrom (s : Heap Unit K V) : ℕ → BitVec 32 → Ptr Unit → Option (BitVec 32)
  | 0, _, _ => none
  | rounds + 1, count, tmp =>
    if s.next tmp ≠ Ptr.null.ref then countFrom s rounds (count + 1) (s.succ tmp) else some count

def length (s : Heap Unit K V) : Option (BitVec 32) := countFrom s (rounds s) 0 (s.succ .head)

/-- `LinkedListSeq`, from its constructor on. -/
def machine (K V : Type*) [LinearOrder K] [BoundedOrder K] [Zero V] :
    Machine (SeqCall K V) (SeqAnswer V) (Heap Unit K V) where
  init := Heap.empty
  apply
    | .call (.search k), s => (search s k).map fun v => (s, .answer (.val v))
    | .call (.insert k v), s => (insert s k v).map fun q => (q.1, .answer (.flag q.2))
    | .call (.remove k), s => (remove s k).map fun q => (q.1, .answer (.val q.2))
    | .length, s => (length s).map fun count => (s, .length count)

/-! ### The list in memory -/

/-- The key and the value of a node. -/
def entry (s : Heap Unit K V) (x : Ptr Unit) : K × V := (s.key x, s.val x)

variable [BoundedOrder K]

/-- These are the nodes of the list, between the sentinels. -/
structure Rep (s : Heap Unit K V) (l : List (Ptr Unit)) : Prop where
  path : Path s.succ .tail .head (.head :: l)
  sorted : l.Pairwise fun x y => s.key x < s.key y
  keys : ∀ x ∈ l, s.key x < ⊤
  node : ∀ x ∈ l, ∃ i, x = .node () i ∧ i < s.count ()
  size : l.length ≤ s.count ()
  unmarked : ∀ x ∈ l, s.next x = (s.succ x).ref
  tail_key : s.key .tail = ⊤
  tail_next : s.next .tail = Ptr.null.ref

variable {s s' : Heap Unit K V} {l lo hi : List (Ptr Unit)} {k : K} {v : V}

theorem Rep.initial : Rep (Heap.empty : Heap Unit K V) [] where
  path := ⟨rfl, nofun, rfl⟩
  sorted := .nil
  keys := nofun
  node := nofun
  size := le_rfl
  unmarked := nofun
  tail_key := rfl
  tail_next := rfl

namespace Rep

theorem fresh (h : Rep s l) : Ptr.node () (s.count ()) ∉ Ptr.head :: l := by
  intro hx
  rcases List.mem_cons.mp hx with hx | hx
  · cases hx
  · obtain ⟨i, hi, hlt⟩ := h.node _ hx
    cases hi
    exact absurd hlt (lt_irrefl _)

/-- The key's node is the first behind the cut. -/
theorem exists_cons (h : Rep s l) (hk : k < ⊤) (he : k = s.key (hi.headD .tail)) :
    ∃ x hi', hi = x :: hi' ∧ s.key x = k ∧ firstVal k (hi.map (entry s)) = some (s.val x) :=
  exists_cons_of_key (e := entry s) (fun ht => hk.ne (ht.trans h.tail_key)) he

theorem last_ne_tail (h : Rep s (lo ++ hi)) : lo.getLastD .head ≠ .tail := by
  rcases List.mem_cons.mp (getLastD_mem .head lo) with he | hx
  · rw [he]
    nofun
  · obtain ⟨i, he, -⟩ := h.node _ (List.mem_append_left hi hx)
    rw [he]
    nofun

theorem allocated {n q : Ptr Unit} {s₁ : Heap Unit K V}
    (ha : s.allocateLlSimple () k v q = (s₁, n)) : n = .node () (s.count ()) ∧
      s₁.mem n = ⟨k, v, q.ref⟩ ∧ (∀ y, y ≠ n → s₁.mem y = s.mem y) ∧
      s₁.count () = s.count () + 1 := by
  obtain ⟨rfl, rfl⟩ := Prod.mk.inj ha
  refine ⟨rfl, Memory.mem_allocate_self s _ (), fun y hy => ?_, by simp⟩
  exact Memory.mem_allocate_of_ne s y ⟨k, v, q.ref⟩ () hy

/-- A node is linked between the two that a call has found. -/
theorem link (h : Rep s (lo ++ hi)) (hc : Cut s.key k lo hi) (hk : k < ⊤) (v : V)
    (hne : k ≠ s.key (hi.headD .tail)) {n : Ptr Unit} {s₁ : Heap Unit K V}
    (ha : s.allocateLlSimple () k v (hi.headD .tail) = (s₁, n))
    (hs' : s' = s₁.setNext (lo.getLastD .head) n.ref) :
    Rep s' (lo ++ n :: hi) ∧
      (lo ++ n :: hi).map (entry s') = lo.map (entry s) ++ (k, v) :: hi.map (entry s) := by
  obtain ⟨hn, hmem₁, hold₁, hcount₁⟩ := allocated ha
  have hcount : s'.count () = s.count () + 1 := by rw [hs', ← hcount₁]; rfl
  set p := lo.getLastD .head with hp
  have hfresh : n ∉ Ptr.head :: (lo ++ hi) := hn ▸ h.fresh
  have hnp : n ≠ p := by
    rintro rfl
    exact hfresh (List.mem_append_left hi (getLastD_mem .head lo))
  have hkey : ∀ y, y ≠ n → s'.key y = s.key y := fun y hy => by
    rw [hs', Heap.key_setNext, Heap.key, hold₁ y hy]
    rfl
  have hval : ∀ y, y ≠ n → s'.val y = s.val y := fun y hy => by
    rw [hs', Heap.val_setNext, Heap.val, hold₁ y hy]
    rfl
  have hself : s'.next p = n.ref := by
    rw [hs']
    exact s₁.next_setNext_self p _
  have hnext : ∀ y, y ≠ p → y ≠ n → s'.next y = s.next y := fun y hy hyn => by
    rw [hs', Heap.next_setNext_of_ne _ _ _ _ hy, Heap.next, hold₁ y hyn]
    rfl
  have hkn : s'.key n = k := by rw [hs', Heap.key_setNext, Heap.key, hmem₁]
  have hvn : s'.val n = v := by rw [hs', Heap.val_setNext, Heap.val, hmem₁]
  have hnn : s'.next n = (hi.headD .tail).ref := by
    rw [hs', Heap.next_setNext_of_ne _ _ _ _ hnp, Heap.next, hmem₁]
  have hne' : ∀ y ∈ lo ++ hi, y ≠ n := fun y hy he => hfresh (he ▸ List.mem_cons_of_mem _ hy)
  have hnt : n ≠ .tail := by
    rw [hn]
    exact fun h => by cases h
  have hmem : ∀ y ∈ lo ++ n :: hi, y = n ∨ y ∈ lo ++ hi := fun y hy => by
    simpa [or_left_comm] using hy
  refine ⟨⟨?_, ?_, fun y hy => ?_, fun y hy => ?_, ?_, fun y hy => ?_, ?_, ?_⟩, ?_⟩
  · refine h.path.link hnt (congrArg Ref.ptr hself) (congrArg Ref.ptr hnn) fun y hy hyp =>
      congrArg Ref.ptr (hnext y hyp ?_)
    rintro rfl
    exact hfresh hy
  · exact hc.insert h.sorted hne (fun y hy => hkey y (hne' y hy)) hkn
  · rcases hmem y hy with rfl | hy
    · rw [hkn]
      exact hk
    · rw [hkey y (hne' y hy)]
      exact h.keys y hy
  · rw [hcount]
    rcases hmem y hy with rfl | hy
    · exact ⟨_, hn, Nat.lt_succ_self _⟩
    · obtain ⟨i, hi, hlt⟩ := h.node y hy
      exact ⟨i, hi, hlt.trans (Nat.lt_succ_self _)⟩
  · have := h.size
    simp only [List.length_append, List.length_cons] at this ⊢
    omega
  · by_cases hyp : y = p
    · rw [Heap.succ, hyp, hself]
      rfl
    · rcases hmem y hy with rfl | hy
      · rw [Heap.succ, hnn]
        rfl
      · rw [Heap.succ, hnext y hyp (hne' y hy)]
        exact h.unmarked y hy
  · rw [hkey _ hnt.symm]
    exact h.tail_key
  · rw [hnext _ h.last_ne_tail.symm hnt.symm]
    exact h.tail_next
  · have he : ∀ y ∈ lo ++ hi, entry s' y = entry s y := fun y hy => by
      rw [entry, hkey y (hne' y hy), hval y (hne' y hy)]
      rfl
    have hlo : lo.map (entry s') = lo.map (entry s) :=
      List.map_congr_left fun y hy => he y (List.mem_append_left hi hy)
    have hhi : hi.map (entry s') = hi.map (entry s) :=
      List.map_congr_left fun y hy => he y (List.mem_append_right lo hy)
    rw [List.map_append, List.map_cons, hlo, hhi, entry, hkn, hvn]

/-- The first node behind the cut is unlinked. -/
theorem unlink {x : Ptr Unit} (h : Rep s (lo ++ x :: hi))
    (hs' : s' = (s.setNext (lo.getLastD .head) (s.next x)).ssmemFree x) :
    Rep s' (lo ++ hi) ∧ (lo ++ hi).map (entry s') = lo.map (entry s) ++ hi.map (entry s) := by
  set p := lo.getLastD .head with hp
  have hkey : ∀ y, s'.key y = s.key y := fun y => by
    rw [hs']
    exact s.key_setNext p y _
  have hval : ∀ y, s'.val y = s.val y := fun y => by
    rw [hs']
    exact s.val_setNext p y _
  have hself : s'.next p = s.next x := by
    rw [hs']
    exact s.next_setNext_self p _
  have hnext : ∀ y, y ≠ p → s'.next y = s.next y := fun y hy => by
    rw [hs']
    exact s.next_setNext_of_ne p y _ hy
  have hcount : s'.count = s.count := by rw [hs']; rfl
  have hsub : (lo ++ hi).Sublist (lo ++ x :: hi) := (List.sublist_cons_self x hi).append_left lo
  refine ⟨⟨?_, ?_, fun y hy => ?_, fun y hy => ?_, ?_, fun y hy => ?_, ?_, ?_⟩, ?_⟩
  · exact h.path.unlink (congrArg Ref.ptr hself) fun y _ hy => congrArg Ref.ptr (hnext y hy)
  · refine (h.sorted.sublist hsub).imp fun {y z} hyz => ?_
    rw [hkey, hkey]
    exact hyz
  · rw [hkey]
    exact h.keys y (hsub.subset hy)
  · rw [hcount]
    exact h.node y (hsub.subset hy)
  · rw [hcount]
    exact hsub.length_le.trans h.size
  · by_cases hyp : y = p
    · rw [Heap.succ, hyp, hself]
      exact h.unmarked x (by simp)
    · rw [Heap.succ, hnext y hyp]
      exact h.unmarked y (hsub.subset hy)
  · rw [hkey]
    exact h.tail_key
  · rw [hnext _ h.last_ne_tail.symm]
    exact h.tail_next
  · have he : entry s' = entry s := by
      funext y
      rw [entry, hkey, hval]
      rfl
    rw [List.map_append, he]

end Rep

section calls

variable (h : Rep s (lo ++ hi)) (hc : Cut s.key k lo hi) (hk : k < ⊤)

include h hc hk

theorem find_eq : find s k = some (lo.getLastD .head, hi.headD .tail) := by
  have hr : lo.length < rounds s := by
    have hlen : lo.length ≤ (lo ++ hi).length := by simp
    exact Nat.lt_succ_of_le (hlen.trans h.size)
  exact h.path.scan hc (by rw [h.tail_key]; exact hk.le) List.mem_cons_self hr

end calls

theorem countFrom_eq {p : Ptr Unit} (hpath : Path s.succ .tail p l)
    (hnode : ∀ x ∈ l, ∃ i, x = .node () i ∧ i < s.count ())
    (hunmarked : ∀ x ∈ l, s.next x = (s.succ x).ref) (ht : s.next .tail = Ptr.null.ref) {rounds : ℕ}
    (hr : l.length < rounds) (count : BitVec 32) :
    countFrom s rounds count p = some (count + BitVec.ofNat 32 l.length) := by
  induction l generalizing p rounds count with
  | nil =>
    obtain ⟨r, rfl⟩ := Nat.exists_eq_succ_of_ne_zero (Nat.ne_zero_of_lt hr)
    obtain rfl : p = .tail := hpath
    simp [countFrom, ht]
  | cons x l ih =>
    obtain ⟨r, rfl⟩ := Nat.exists_eq_succ_of_ne_zero (Nat.ne_zero_of_lt hr)
    obtain ⟨rfl, -, hpath⟩ := hpath
    have hne : s.next p ≠ Ptr.null.ref := by
      rw [hunmarked p List.mem_cons_self, hpath.eq_headD]
      cases l with
      | nil => nofun
      | cons y l =>
        obtain ⟨i, rfl, -⟩ := hnode y (by simp)
        nofun
    rw [countFrom, if_pos hne, ih hpath (fun y hy => hnode y (List.mem_cons_of_mem _ hy))
      (fun y hy => hunmarked y (List.mem_cons_of_mem _ hy)) (Nat.lt_of_succ_lt_succ hr)]
    rw [List.length_cons, BitVec.ofNat_add, BitVec.add_assoc, BitVec.add_comm (1 : BitVec 32)]
    rfl

/-- The call does to the nodes what it does to a sorted list of entries. -/
def CallOk (op : SeqCall K V) (s : Heap Unit K V) (l : List (Ptr Unit)) : Prop :=
  ∃ s' l' r, (machine K V).apply op s = some (s', r) ∧
    (sortedList K V).apply op (l.map (entry s)) = some (l'.map (entry s'), r) ∧ Rep s' l'

theorem search_ok (h : Rep s l) (hk : k < ⊤) : CallOk (.call (.search k)) s l := by
  obtain ⟨lo, hi, rfl, hc⟩ := exists_cut h.sorted k
  have hf := find_eq h hc hk
  have hce : Cut Prod.fst k (lo.map (entry s)) (hi.map (entry s)) := hc.map fun _ _ => rfl
  refine ⟨s, lo ++ hi,
    .answer (.val (if k = s.key (hi.headD .tail) then s.val (hi.headD .tail) else 0)), ?_, ?_, h⟩
  · simp [machine, search, hf]
  · rw [List.map_append, sortedList_search hce]
    by_cases he : k = s.key (hi.headD .tail)
    · obtain ⟨x, hi, rfl, hx, hv⟩ := h.exists_cons hk he
      rw [hv, if_pos he]
      rfl
    · rw [firstVal_map (e := entry s) he, if_neg he]
      rfl

theorem insert_ok (h : Rep s l) (hk : k < ⊤) (v : V) : CallOk (.call (.insert k v)) s l := by
  obtain ⟨lo, hi, rfl, hc⟩ := exists_cut h.sorted k
  have hf := find_eq h hc hk
  have hce : Cut Prod.fst k (lo.map (entry s)) (hi.map (entry s)) := hc.map fun _ _ => rfl
  by_cases he : k = s.key (hi.headD .tail)
  · obtain ⟨x, hi, rfl, hx, hv⟩ := h.exists_cons hk he
    refine ⟨s, lo ++ x :: hi, .answer (.flag false), ?_, ?_, h⟩
    · simp only [machine, insert, hf, Option.map_some, if_pos he]
    · rw [List.map_append, sortedList_insert_some hce hv]
  · rcases ha : s.allocateLlSimple () k v (hi.headD .tail) with ⟨s₁, n⟩
    obtain ⟨h', hl'⟩ := h.link hc hk v he ha rfl
    refine ⟨_, _, .answer (.flag true), ?_, ?_, h'⟩
    · simp only [machine, insert, hf, Option.map_some, if_neg he, ha]
    · rw [List.map_append, sortedList_insert_none hce (firstVal_map (e := entry s) he), hl']

theorem remove_ok (h : Rep s l) (hk : k < ⊤) : CallOk (.call (.remove k)) s l := by
  obtain ⟨lo, hi, rfl, hc⟩ := exists_cut h.sorted k
  have hf := find_eq h hc hk
  have hce : Cut Prod.fst k (lo.map (entry s)) (hi.map (entry s)) := hc.map fun _ _ => rfl
  by_cases he : k = s.key (hi.headD .tail)
  · obtain ⟨x, hi, rfl, hx, hv⟩ := h.exists_cons hk he
    obtain ⟨h', hl'⟩ := h.unlink rfl
    refine ⟨_, lo ++ hi, .answer (.val (s.val x)), ?_, ?_, h'⟩
    · simp only [machine, remove, hf, Option.map_some, if_pos he]
      rfl
    · rw [List.map_append, sortedList_remove_some hce hv, hl']
      rfl
  · refine ⟨s, lo ++ hi, .answer (.val 0), ?_, ?_, h⟩
    · simp only [machine, remove, hf, Option.map_some, if_neg he]
    · rw [List.map_append, sortedList_remove_none hce (firstVal_map (e := entry s) he)]

theorem length_ok (h : Rep s l) : CallOk .length s l := by
  refine ⟨s, l, .length (BitVec.ofNat 32 l.length), ?_, by simp [sortedList], h⟩
  have hr : l.length < rounds s := Nat.lt_succ_of_le h.size
  have hc := countFrom_eq h.path.2.2 h.node h.unmarked h.tail_next hr 0
  rw [zero_add] at hc
  simp only [machine, length, hc, Option.map_some]

/-- **Every call does to the nodes what it does to a sorted list of entries.** -/
theorem call_ok {op : SeqCall K V} (h : Rep s l) (hop : op.Client) : CallOk op s l := by
  cases op with
  | call op =>
    cases op with
    | search k => exact search_ok h hop.2.1
    | insert k v => exact insert_ok h hop.2.1 v
    | remove k => exact remove_ok h hop.2.1
  | length => exact length_ok h

end LinkedListSeq

end Ascylib
