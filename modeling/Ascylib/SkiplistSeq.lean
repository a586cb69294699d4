/-
# The sequential skip list

`src/algorithms/skiplist_seq.h`, for one thread. A search goes down the levels,
and on each of them along the nodes with smaller keys; `insert` and `remove`
write down where it leaves a level. A loop that goes on for more rounds than
there are nodes never ends, so that is where the model gives up, as it does
where `preds` and `succs` would be written outside their bounds.

The skip list answers as the sequential list does, and every level of it is
the list of those nodes that have the level.

Key theorem: `SkiplistSeq.skiplist_seq_refines`.
-/
import Ascylib.LinkedListSeq
import Ascylib.SkipHeap
import Mathlib.Data.Fintype.Order
import Mathlib.Order.CompletePartialOrder

set_option linter.unusedSectionVars false

namespace Ascylib

open Concur

namespace SkiplistSeq

variable {K V A : Type*} [LinearOrder K] [Zero V]

/-- `MAXLEVEL` -/
def maxLevel : ℕ := 32

/-- The rounds that a loop over all nodes takes. -/
def rounds (s : SkipHeap Unit K V) : ℕ := s.count () + 1

/-- `node->next[i]`, as a pointer. -/
def succ (s : SkipHeap Unit K V) (i : ℕ) (node : Ptr Unit) : Ptr Unit := (s.next node i).ptr

/-- `for (int i = ...; i >= 0; i--) { next = node->next[i]; while (next->key < key) ... }`,
where `record` is what the caller does with `node` at the end of a round. -/
def descend (s : SkipHeap Unit K V) (key : K) (record : ℕ → Ptr Unit → A → Option A) :
    ℕ → Ptr Unit → Ptr Unit → A → Option (Ptr Unit × Ptr Unit × A)
  | 0, node, next, a => some (node, next, a)
  | i + 1, node, _, a =>
    match scan (succ s i) (fun x => s.key x < key) (rounds s) node (succ s i node) with
    | none => none
    | some (node, next) =>
      match record i node a with
      | none => none
      | some a => descend s key record i node next a

/-- `search` keeps nothing. -/
def search (s : SkipHeap Unit K V) (key : K) : Option V :=
  (descend s key (fun _ _ a => some a) (s.toplevel .head) .head .null ()).map fun (node, _, _) =>
    let node := succ s 0 node
    if s.key node = key then s.val node else 0

/-- The arrays `preds` and `succs`. -/
structure Lists where
  preds : ℕ → Ptr Unit
  succs : ℕ → Ptr Unit

/-- Before anything is written to them. -/
def noLists : Lists := ⟨fun _ => .null, fun _ => .null⟩

/-- `preds[i] = node; succs[i] = node->next[i];` -/
def Lists.record (s : SkipHeap Unit K V) (i : ℕ) (node : Ptr Unit) (a : Lists) : Option Lists :=
  if i < maxLevel then
    some ⟨Function.update a.preds i node, Function.update a.succs i (succ s i node)⟩
  else none

/-- The loop of `get_rand_level`; the numbers come from `randRange`. -/
def randLevels (randRange : ℕ → ℕ) : ℕ → ℕ → ℕ → ℕ × ℕ
  | 0, level, drawn => (level, drawn)
  | i + 1, level, drawn =>
    if randRange drawn < 50 then randLevels randRange i (level + 1) (drawn + 1)
    else (level, drawn + 1)

/-- The level, and how many numbers have been drawn. -/
def getRandLevel (levelmax : ℕ) (randRange : ℕ → ℕ) (drawn : ℕ) : ℕ × ℕ :=
  randLevels randRange (levelmax - 1) 1 drawn

/-- `node->next[i] = succs[i]; preds[i]->next[i] = node;` -/
def link (node : Ptr Unit) (a : Lists) (s : SkipHeap Unit K V) (i : ℕ) : SkipHeap Unit K V :=
  (s.setNext node i (a.succs i).ref).setNext (a.preds i) i node.ref

/-- The memory, whether the node is new, and how many numbers have been drawn. -/
def insert (levelmax : ℕ) (randRange : ℕ → ℕ) (s : SkipHeap Unit K V) (drawn : ℕ) (key : K) (val : V) :
    Option (SkipHeap Unit K V × ℕ × Bool) :=
  (descend s key (Lists.record s) (s.toplevel .head) .head .null noLists).map fun (node, _, a) =>
    let node := succ s 0 node
    if s.key node ≠ key then
      let (l, drawn) := getRandLevel levelmax randRange drawn
      let (s, node) := s.allocateSlSimpleUnlinked () key val l
      ((List.range l).foldl (link node a) s, drawn, true)
    else (s, drawn, false)

/-- `if (succs[i]->key == key) preds[i]->next[i] = succs[i]->next[i];` -/
def unlink (key : K) (a : Lists) (s : SkipHeap Unit K V) (i : ℕ) : SkipHeap Unit K V :=
  if s.key (a.succs i) = key then s.setNext (a.preds i) i (s.next (a.succs i) i) else s

/-- `next` is where the loop has left level 0. -/
def remove (s : SkipHeap Unit K V) (key : K) : Option (SkipHeap Unit K V × V) :=
  (descend s key (Lists.record s) (s.toplevel .head) .head .null noLists).map fun (_, next, a) =>
    if s.key next = key then
      (((List.range (s.toplevel .head)).foldl (unlink key a) s).ssmemFree next, s.val next)
    else (s, 0)

/-- `while (node->next[0] != NULL) ...` -/
def countFrom (s : SkipHeap Unit K V) : ℕ → BitVec 32 → Ptr Unit → Option (BitVec 32)
  | 0, _, _ => none
  | rounds + 1, count, node =>
    if s.next node 0 ≠ Ptr.null.ref then
      let count := if !isMarked (s.next node 0) then count + 1 else count
      countFrom s rounds count (unsetMark (s.next node 0)).ptr
    else some count

def length (s : SkipHeap Unit K V) : Option (BitVec 32) :=
  countFrom s (rounds s) 0 (unsetMark (s.next .head 0)).ptr

/-- `SkiplistSeq`, from its constructor on: its memory, and how many random
numbers have been drawn. -/
def machine (K V : Type*) [LinearOrder K] [BoundedOrder K] [Zero V] (levelmax : ℕ)
    (randRange : ℕ → ℕ) : Machine (SeqCall K V) (SeqAnswer V) (SkipHeap Unit K V × ℕ) where
  init := (SkipHeap.empty levelmax, 0)
  apply
    | .call (.search k), (s, drawn) => (search s k).map fun v => ((s, drawn), .answer (.val v))
    | .call (.insert k v), (s, drawn) => (insert levelmax randRange s drawn k v).map fun q =>
        ((q.1, q.2.1), .answer (.flag q.2.2))
    | .call (.remove k), (s, drawn) => (remove s k).map fun q => ((q.1, drawn), .answer (.val q.2))
    | .length, (s, drawn) => (length s).map fun count => ((s, drawn), .length count)

/-! ### The lists in memory -/

/-- The key and the value of a node. -/
def entry (s : SkipHeap Unit K V) (x : Ptr Unit) : K × V := (s.key x, s.val x)

/-- The nodes that have level `i`. -/
def tall (s : SkipHeap Unit K V) (i : ℕ) (l : List (Ptr Unit)) : List (Ptr Unit) :=
  l.filter fun x => i < s.toplevel x

/-- These are the nodes of level `i`, between the sentinels. -/
def Level (s : SkipHeap Unit K V) (i : ℕ) (l : List (Ptr Unit)) : Prop :=
  Path (succ s i) .tail .head (.head :: l)

variable [BoundedOrder K]

/-- These are the nodes of the skip list, and each level has those that are
tall enough. -/
structure Rep (levelmax : ℕ) (s : SkipHeap Unit K V) (l : List (Ptr Unit)) : Prop where
  level : ∀ i < levelmax, Level s i (tall s i l)
  sorted : l.Pairwise fun x y => s.key x < s.key y
  keys : ∀ x ∈ l, s.key x < ⊤
  top : ∀ x ∈ l, 0 < s.toplevel x ∧ s.toplevel x ≤ levelmax
  node : ∀ x ∈ l, ∃ i, x = .node () i ∧ i < s.count ()
  size : l.length ≤ s.count ()
  unmarked : ∀ x ∈ l, s.next x 0 = (succ s 0 x).ref
  head_top : s.toplevel .head = levelmax
  tail_key : s.key .tail = ⊤
  tail_next : s.next .tail 0 = Ptr.null.ref

variable {s s' : SkipHeap Unit K V} {l lo hi : List (Ptr Unit)} {k : K} {v : V}
  {levelmax drawn i j : ℕ} {x y n : Ptr Unit} {randRange : ℕ → ℕ}

theorem Rep.initial (levelmax : ℕ) :
    Rep levelmax (SkipHeap.empty levelmax : SkipHeap Unit K V) [] where
  level _ _ := ⟨rfl, nofun, rfl⟩
  sorted := .nil
  keys := nofun
  top := nofun
  node := nofun
  size := le_rfl
  unmarked := nofun
  head_top := rfl
  tail_key := rfl
  tail_next := rfl

@[simp] theorem tall_append : tall s i (lo ++ hi) = tall s i lo ++ tall s i hi :=
  List.filter_append ..

theorem tall_cons_of_lt (h : i < s.toplevel x) : tall s i (x :: l) = x :: tall s i l :=
  List.filter_cons_of_pos (decide_eq_true h)

theorem tall_cons_of_le (h : s.toplevel x ≤ i) : tall s i (x :: l) = tall s i l :=
  List.filter_cons_of_neg (by simpa using h)

theorem mem_tall : x ∈ tall s i l ↔ x ∈ l ∧ i < s.toplevel x := by simp [tall]

/-- The last node of level `i` with a smaller key. -/
def predAt (s : SkipHeap Unit K V) (lo : List (Ptr Unit)) (i : ℕ) : Ptr Unit :=
  (tall s i lo).getLastD .head

/-- The node behind it. -/
def succAt (s : SkipHeap Unit K V) (hi : List (Ptr Unit)) (i : ℕ) : Ptr Unit :=
  (tall s i hi).headD .tail

theorem predAt_mem (s : SkipHeap Unit K V) (lo : List (Ptr Unit)) (i : ℕ) :
    predAt s lo i ∈ Ptr.head :: tall s i lo := getLastD_mem ..

namespace Rep

section cut

variable (h : Rep levelmax s (lo ++ hi)) (hc : Cut s.key k lo hi) (hk : k < ⊤)

include h

theorem level_append (hi' : i < levelmax) :
    Path (succ s i) .tail .head (.head :: (tall s i lo ++ tall s i hi)) := by
  have hl := h.level i hi'
  rwa [tall_append] at hl

theorem succ_predAt (hi' : i < levelmax) : succ s i (predAt s lo i) = succAt s hi i :=
  (h.level_append hi').behind.eq_headD

include hc hk

/-- One round of the loop over the levels. -/
theorem scan_eq (hi' : i < levelmax) (hx : x ∈ Ptr.head :: tall s i lo) :
    scan (succ s i) (fun x => s.key x < k) (rounds s) x (succ s i x) =
      some (predAt s lo i, succAt s hi i) := by
  have hr : (tall s i lo).length < rounds s := by
    have h1 : (tall s i lo).length ≤ lo.length := List.length_filter_le ..
    have h2 : lo.length ≤ (lo ++ hi).length := by simp
    exact Nat.lt_succ_of_le (h1.trans (h2.trans h.size))
  exact (h.level_append hi').scan (hc.filter _) (by rw [h.tail_key]; exact hk.le) hx hr

/-- **The loop over the levels** ends between the last node of level 0 with a
smaller key and the node behind it. What it records at each level are those two
nodes of the level. -/
theorem descend_eq (record : ℕ → Ptr Unit → A → Option A) (R : ℕ → A → Prop)
    (hrec : ∀ i a, i < levelmax → R (i + 1) a →
      ∃ a', record i (predAt s lo i) a = some a' ∧ R i a')
    (hle : i ≤ levelmax) {node : Ptr Unit} (next : Ptr Unit) (a : A) (hR : R i a)
    (hnode : ∀ j < i, node ∈ Ptr.head :: tall s j lo) :
    ∃ node' next' a', descend s k record i node next a = some (node', next', a') ∧ R 0 a' ∧
      (0 < i → node' = predAt s lo 0 ∧ next' = succAt s hi 0) := by
  induction i generalizing node next a with
  | zero => exact ⟨node, next, a, rfl, hR, fun h => absurd h (lt_irrefl _)⟩
  | succ i ih =>
    have hi' : i < levelmax := hle
    obtain ⟨a', ha', hR'⟩ := hrec i a hi' hR
    have hscan := h.scan_eq hc hk hi' (hnode i (Nat.lt_succ_self i))
    have hmem : ∀ j < i, predAt s lo i ∈ Ptr.head :: tall s j lo := by
      intro j hj
      rcases List.mem_cons.mp (predAt_mem s lo i) with he | hm
      · exact he ▸ List.mem_cons_self
      · obtain ⟨h1, h2⟩ := mem_tall.mp hm
        exact List.mem_cons_of_mem _ (mem_tall.mpr ⟨h1, hj.trans h2⟩)
    obtain ⟨node', next', a'', he, hR'', hlast⟩ := ih hi'.le (succAt s hi i) a' hR' hmem
    refine ⟨node', next', a'', ?_, hR'', fun _ => ?_⟩
    · simp only [descend, hscan, ha', he]
    · cases i with
      | zero =>
        simp only [descend, Option.some.injEq, Prod.mk.injEq] at he
        exact ⟨he.1.symm, he.2.1.symm⟩
      | succ i => exact hlast i.succ_pos

end cut

end Rep

/-- The arrays hold, from level `i` up, the nodes where the key cuts a level. -/
def Recorded (levelmax : ℕ) (s : SkipHeap Unit K V) (lo hi : List (Ptr Unit)) (i : ℕ) (a : Lists) :
    Prop :=
  ∀ j, i ≤ j → j < levelmax → a.preds j = predAt s lo j ∧ a.succs j = succAt s hi j

theorem Recorded.record (h : Rep levelmax s (lo ++ hi)) (hmax : levelmax ≤ maxLevel) {a : Lists}
    (hi' : i < levelmax) (ha : Recorded levelmax s lo hi (i + 1) a) :
    ∃ a', Lists.record s i (predAt s lo i) a = some a' ∧ Recorded levelmax s lo hi i a' := by
  refine ⟨_, if_pos (hi'.trans_le hmax), fun j hij hj => ?_⟩
  rcases hij.eq_or_lt with rfl | hij
  · exact ⟨Function.update_self .., by simpa using h.succ_predAt hj⟩
  · simpa [Function.update_of_ne hij.ne'] using ha j hij hj

/-! ### The levels are written one by one -/

section fold

variable {f : SkipHeap Unit K V → ℕ → SkipHeap Unit K V} {m : ℕ}

/-- What no round of the loop changes. -/
theorem foldl_same {β : Type*} (g : SkipHeap Unit K V → β) (hf : ∀ s i, g (f s i) = g s)
    (s : SkipHeap Unit K V) (m : ℕ) : g ((List.range m).foldl f s) = g s := by
  induction m with
  | zero => rfl
  | succ m ih => rw [List.range_succ, List.foldl_append, List.foldl_cons, List.foldl_nil, hf, ih]

/-- A loop that writes one level a round. -/
theorem foldl_next (hf : ∀ s i x j, j ≠ i → (f s i).next x j = s.next x j) (s : SkipHeap Unit K V)
    (x : Ptr Unit) (j m : ℕ) : ((List.range m).foldl f s).next x j =
      if j < m then (f ((List.range j).foldl f s) j).next x j else s.next x j := by
  induction m with
  | zero => rfl
  | succ m ih =>
    rw [List.range_succ, List.foldl_append, List.foldl_cons, List.foldl_nil]
    rcases lt_trichotomy j m with hj | rfl | hj
    · rw [hf _ _ _ _ hj.ne, ih, if_pos hj, if_pos (hj.trans (Nat.lt_succ_self m))]
    · rw [if_pos (Nat.lt_succ_self j)]
    · rw [hf _ _ _ _ hj.ne', ih, if_neg hj.not_gt, if_neg (Nat.not_lt.mpr hj)]

end fold

/-- What `insert` leaves of the nodes and of their pointers. -/
theorem foldl_link {a : Lists} (s : SkipHeap Unit K V) (m : ℕ) (hn : ∀ i < m, n ≠ a.preds i) :
    (∀ x, ((List.range m).foldl (link n a) s).key x = s.key x) ∧
    (∀ x, ((List.range m).foldl (link n a) s).val x = s.val x) ∧
    (∀ x, ((List.range m).foldl (link n a) s).toplevel x = s.toplevel x) ∧
    (∀ i < m, ((List.range m).foldl (link n a) s).next (a.preds i) i = n.ref ∧
      ((List.range m).foldl (link n a) s).next n i = (a.succs i).ref) ∧
    ∀ x i, m ≤ i ∨ x ≠ a.preds i ∧ x ≠ n → ((List.range m).foldl (link n a) s).next x i = s.next x i := by
  have hlink : ∀ (s : SkipHeap Unit K V) i x j, j ≠ i → (link n a s i).next x j = s.next x j :=
    fun s i x j hj => by
      rw [link, SkipHeap.next_setNext_of_ne _ _ _ _ _ _ (Or.inr hj),
        SkipHeap.next_setNext_of_ne _ _ _ _ _ _ (Or.inr hj)]
  have hnext := fun x i => foldl_next hlink s x i m
  refine ⟨fun x => ?_, fun x => ?_, fun x => ?_, fun i hi => ⟨?_, ?_⟩, fun x i hx => ?_⟩
  · exact foldl_same (fun s => s.key x) (fun s i => by simp [link]) s m
  · exact foldl_same (fun s => s.val x) (fun s i => by simp [link]) s m
  · exact foldl_same (fun s => s.toplevel x) (fun s i => by simp [link]) s m
  · rw [hnext, if_pos hi, link, SkipHeap.next_setNext_self]
  · rw [hnext, if_pos hi, link, SkipHeap.next_setNext_of_ne _ _ _ _ _ _ (Or.inl (hn i hi)),
      SkipHeap.next_setNext_self]
  · rw [hnext]
    split
    · obtain ⟨h1, h2⟩ := hx.resolve_left (by omega)
      rw [link, SkipHeap.next_setNext_of_ne _ _ _ _ _ _ (Or.inl h1),
        SkipHeap.next_setNext_of_ne _ _ _ _ _ _ (Or.inl h2), foldl_next hlink, if_neg (lt_irrefl i)]
    · rfl

/-- What `remove` leaves of them. -/
theorem foldl_unlink {a : Lists} (s : SkipHeap Unit K V) (m : ℕ) :
    (∀ x, ((List.range m).foldl (unlink k a) s).key x = s.key x) ∧
    (∀ x, ((List.range m).foldl (unlink k a) s).val x = s.val x) ∧
    (∀ x, ((List.range m).foldl (unlink k a) s).toplevel x = s.toplevel x) ∧
    (∀ i < m, s.key (a.succs i) = k →
      ((List.range m).foldl (unlink k a) s).next (a.preds i) i = s.next (a.succs i) i) ∧
    ∀ x i, m ≤ i ∨ x ≠ a.preds i ∨ s.key (a.succs i) ≠ k →
      ((List.range m).foldl (unlink k a) s).next x i = s.next x i := by
  have hlink : ∀ (s : SkipHeap Unit K V) i x j, j ≠ i → (unlink k a s i).next x j = s.next x j :=
    fun s i x j hj => by
      unfold unlink
      split
      · exact SkipHeap.next_setNext_of_ne _ _ _ _ _ _ (Or.inr hj)
      · rfl
  have hkey : ∀ x m, ((List.range m).foldl (unlink k a) s).key x = s.key x := fun x m =>
    foldl_same (fun s => s.key x) (fun s i => by unfold unlink; split <;> simp) s m
  have hnext := fun x i => foldl_next hlink s x i m
  refine ⟨fun x => hkey x m, fun x => ?_, fun x => ?_, fun i hi he => ?_, fun x i hx => ?_⟩
  · exact foldl_same (fun s => s.val x) (fun s i => by unfold unlink; split <;> simp) s m
  · exact foldl_same (fun s => s.toplevel x) (fun s i => by unfold unlink; split <;> simp) s m
  · rw [hnext, if_pos hi, unlink, hkey, if_pos he, SkipHeap.next_setNext_self, foldl_next hlink,
      if_neg (lt_irrefl i)]
  · rw [hnext]
    split
    · rename_i hi
      rw [unlink, hkey]
      split
      · rename_i he
        have hxp : x ≠ a.preds i := (hx.resolve_left (by omega)).resolve_right fun h => h he
        rw [SkipHeap.next_setNext_of_ne _ _ _ _ _ _ (Or.inl hxp), foldl_next hlink,
          if_neg (lt_irrefl i)]
      · rw [foldl_next hlink, if_neg (lt_irrefl i)]
    · rfl

/-! ### The calls -/

namespace Rep

theorem fresh (h : Rep levelmax s l) : Ptr.node () (s.count ()) ∉ Ptr.head :: l := by
  intro hx
  rcases List.mem_cons.mp hx with hx | hx
  · cases hx
  · obtain ⟨i, hi, hlt⟩ := h.node _ hx
    cases hi
    exact absurd hlt (lt_irrefl _)

/-- The key's node is the first behind the cut. -/
theorem exists_cons (h : Rep levelmax s l) (hk : k < ⊤) (he : k = s.key (hi.headD .tail)) :
    ∃ x hi', hi = x :: hi' ∧ s.key x = k ∧ firstVal k (hi.map (entry s)) = some (s.val x) :=
  exists_cons_of_key (e := entry s) (fun ht => hk.ne (ht.trans h.tail_key)) he

theorem ne_tail (h : Rep levelmax s l) (hx : x ∈ Ptr.head :: l) : x ≠ .tail := by
  rcases List.mem_cons.mp hx with rfl | hx
  · nofun
  · obtain ⟨i, rfl, -⟩ := h.node _ hx
    nofun

theorem pred_mem (s : SkipHeap Unit K V) (lo hi : List (Ptr Unit)) (i : ℕ) :
    predAt s lo i ∈ Ptr.head :: (lo ++ hi) := by
  rcases List.mem_cons.mp (predAt_mem s lo i) with he | hm
  · exact he ▸ List.mem_cons_self
  · exact List.mem_cons_of_mem _ (List.mem_append_left _ (mem_tall.mp hm).1)

theorem tall_zero (h : Rep levelmax s l) : tall s 0 l = l :=
  List.filter_eq_self.mpr fun x hx => by simpa using (h.top x hx).1

theorem succAt_zero (h : Rep levelmax s (lo ++ hi)) : succAt s hi 0 = hi.headD .tail := by
  have : tall s 0 hi = hi := List.filter_eq_self.mpr fun x hx => by
    simpa using (h.top x (List.mem_append_right lo hx)).1
  rw [succAt, this]

theorem tall_congr (ht : ∀ x ∈ l, s'.toplevel x = s.toplevel x) : tall s' i l = tall s i l :=
  List.filter_congr fun x hx => by rw [ht x hx]

theorem allocated {m : ℕ} {s₁ : SkipHeap Unit K V}
    (ha : s.allocateSlSimpleUnlinked () k v m = (s₁, n)) : n = .node () (s.count ()) ∧
      s₁.mem n = ⟨k, v, m, fun _ => Ptr.null.ref⟩ ∧ (∀ y, y ≠ n → s₁.mem y = s.mem y) ∧
      s₁.count () = s.count () + 1 := by
  obtain ⟨rfl, rfl⟩ := Prod.mk.inj ha
  refine ⟨rfl, Memory.mem_allocate_self s _ (), fun y hy => ?_, by simp⟩
  exact Memory.mem_allocate_of_ne s y ⟨k, v, m, fun _ => Ptr.null.ref⟩ () hy

section link

variable (h : Rep levelmax s (lo ++ hi)) (hc : Cut s.key k lo hi) (hk : k < ⊤)
  (hne : k ≠ s.key (hi.headD .tail)) {m : ℕ} (hm : 0 < m ∧ m ≤ levelmax) {a : Lists}
  (ha : Recorded levelmax s lo hi 0 a) {s₁ : SkipHeap Unit K V}
  (halloc : s.allocateSlSimpleUnlinked () k v m = (s₁, n))
  (hs' : s' = (List.range m).foldl (SkiplistSeq.link n a) s₁)

include h hc hk hne hm ha halloc hs'

/-- A node is linked at its levels. -/
theorem link : Rep levelmax s' (lo ++ n :: hi) ∧
    (lo ++ n :: hi).map (entry s') = lo.map (entry s) ++ (k, v) :: hi.map (entry s) := by
  obtain ⟨hn, hmem₁, hold₁, hcount₁⟩ := allocated halloc
  have hfresh : n ∉ Ptr.head :: (lo ++ hi) := hn ▸ h.fresh
  have hpreds : ∀ i < m, a.preds i = predAt s lo i ∧ a.succs i = succAt s hi i := fun i hi =>
    ha i i.zero_le (hi.trans_le hm.2)
  have hnp : ∀ i, n ≠ predAt s lo i := fun i he => hfresh (he ▸ pred_mem s lo hi i)
  obtain ⟨hkey₁, hval₁, htop₁, hself, hnext₁⟩ := foldl_link (a := a) s₁ m fun i hi => by
    rw [(hpreds i hi).1]
    exact hnp i
  rw [← hs'] at hkey₁ hval₁ htop₁ hself hnext₁
  have hcount : s'.count () = s.count () + 1 := by
    rw [← hcount₁, hs']
    exact foldl_same (f := SkiplistSeq.link n a) (fun s => s.count ()) (fun s i => rfl) s₁ m
  have hkey : ∀ y, y ≠ n → s'.key y = s.key y := fun y hy => by
    rw [hkey₁, SkipHeap.key, hold₁ y hy]
    rfl
  have hval : ∀ y, y ≠ n → s'.val y = s.val y := fun y hy => by
    rw [hval₁, SkipHeap.val, hold₁ y hy]
    rfl
  have htop : ∀ y, y ≠ n → s'.toplevel y = s.toplevel y := fun y hy => by
    rw [htop₁, SkipHeap.toplevel, hold₁ y hy]
    rfl
  have hnext : ∀ y i, y ≠ n → m ≤ i ∨ y ≠ predAt s lo i → s'.next y i = s.next y i := by
    intro y i hy hyp
    have hold : s₁.next y i = s.next y i := by
      rw [SkipHeap.next, hold₁ y hy]
      rfl
    rw [← hold]
    refine hnext₁ y i ?_
    rcases Nat.lt_or_ge i m with hi | hi
    · rw [(hpreds i hi).1]
      exact Or.inr ⟨hyp.resolve_left (Nat.not_le.mpr hi), hy⟩
    · exact Or.inl hi
  have hkn : s'.key n = k := by rw [hkey₁, SkipHeap.key, hmem₁]
  have hvn : s'.val n = v := by rw [hval₁, SkipHeap.val, hmem₁]
  have htn : s'.toplevel n = m := by rw [htop₁, SkipHeap.toplevel, hmem₁]
  have hne' : ∀ y ∈ lo ++ hi, y ≠ n := fun y hy he => hfresh (he ▸ List.mem_cons_of_mem _ hy)
  have hnt : n ≠ .tail := by
    rw [hn]
    exact fun h => by cases h
  have hnh : Ptr.head ≠ n := by
    rw [hn]
    exact fun h => by cases h
  have hmem : ∀ y ∈ lo ++ n :: hi, y = n ∨ y ∈ lo ++ hi := fun y hy => by
    simpa [or_left_comm] using hy
  have hlo : ∀ i, tall s' i lo = tall s i lo := fun i =>
    tall_congr fun y hy => htop y (hne' y (List.mem_append_left hi hy))
  have hhi : ∀ i, tall s' i hi = tall s i hi := fun i =>
    tall_congr fun y hy => htop y (hne' y (List.mem_append_right lo hy))
  refine ⟨⟨fun i hi' => ?_, ?_, fun y hy => ?_, fun y hy => ?_, fun y hy => ?_, ?_, fun y hy => ?_,
    ?_, ?_, ?_⟩, ?_⟩
  · have hsub : ∀ y ∈ Ptr.head :: (tall s i lo ++ tall s i hi), y ∈ Ptr.head :: (lo ++ hi) := by
      intro y hy
      rw [← tall_append] at hy
      exact (List.mem_cons.mp hy).elim (fun h => h ▸ List.mem_cons_self) fun h =>
        List.mem_cons_of_mem _ (mem_tall.mp h).1
    have hsub' : ∀ y ∈ Ptr.head :: (tall s i lo ++ tall s i hi), y ≠ n := fun y hy he =>
      hfresh (he ▸ hsub y hy)
    rw [Level, tall_append, hlo]
    rcases Nat.lt_or_ge i m with him | him
    · -- the node is linked at this level
      rw [tall_cons_of_lt (htn ▸ him), hhi]
      obtain ⟨hp, hs⟩ := hself i him
      rw [(hpreds i him).1] at hp
      rw [(hpreds i him).2] at hs
      exact (h.level_append hi').link hnt (congrArg Ref.ptr hp) (congrArg Ref.ptr hs) fun y hy hyp =>
        congrArg Ref.ptr (hnext y i (hsub' y hy) (Or.inr hyp))
    · -- or not
      rw [tall_cons_of_le (htn ▸ him), hhi]
      exact (h.level_append hi').congr fun y hy =>
        congrArg Ref.ptr (hnext y i (hsub' y hy) (Or.inl him))
  · exact hc.insert h.sorted hne (fun y hy => hkey y (hne' y hy)) hkn
  · rcases hmem y hy with rfl | hy
    · rw [hkn]
      exact hk
    · rw [hkey y (hne' y hy)]
      exact h.keys y hy
  · rcases hmem y hy with rfl | hy
    · rw [htn]
      exact hm
    · rw [htop y (hne' y hy)]
      exact h.top y hy
  · rw [hcount]
    rcases hmem y hy with rfl | hy
    · exact ⟨_, hn, Nat.lt_succ_self _⟩
    · obtain ⟨i, hi, hlt⟩ := h.node y hy
      exact ⟨i, hi, hlt.trans (Nat.lt_succ_self _)⟩
  · have := h.size
    simp only [List.length_append, List.length_cons] at this ⊢
    omega
  · by_cases hyp : y = predAt s lo 0
    · have hp := (hself 0 hm.1).1
      rw [(hpreds 0 hm.1).1, ← hyp] at hp
      rw [succ, hp]
      rfl
    · rcases hmem y hy with rfl | hy
      · rw [succ, (hself 0 hm.1).2]
        rfl
      · rw [succ, hnext y 0 (hne' y hy) (Or.inr hyp)]
        exact h.unmarked y hy
  · rw [htop _ hnh]
    exact h.head_top
  · rw [hkey _ hnt.symm]
    exact h.tail_key
  · rw [hnext _ 0 hnt.symm (Or.inr (h.ne_tail (pred_mem s lo hi 0)).symm)]
    exact h.tail_next
  · have he : ∀ y ∈ lo ++ hi, entry s' y = entry s y := fun y hy => by
      rw [entry, hkey y (hne' y hy), hval y (hne' y hy)]
      rfl
    have hlo : lo.map (entry s') = lo.map (entry s) :=
      List.map_congr_left fun y hy => he y (List.mem_append_left hi hy)
    have hhi : hi.map (entry s') = hi.map (entry s) :=
      List.map_congr_left fun y hy => he y (List.mem_append_right lo hy)
    rw [List.map_append, List.map_cons, hlo, hhi, entry, hkn, hvn]

end link

/-- The node with the key is unlinked from its levels. -/
theorem unlink {a : Lists} (h : Rep levelmax s (lo ++ x :: hi)) (hx : s.key x = k)
    (ha : Recorded levelmax s lo (x :: hi) 0 a)
    (hs' : s' = ((List.range (s.toplevel .head)).foldl (SkiplistSeq.unlink k a) s).ssmemFree x) :
    Rep levelmax s' (lo ++ hi) ∧ (lo ++ hi).map (entry s') = lo.map (entry s) ++ hi.map (entry s) := by
  have hxl : x ∈ lo ++ x :: hi := by simp
  obtain ⟨hkey₁, hval₁, htop₁, hself₁, hnext₁⟩ := foldl_unlink (k := k) (a := a) s (s.toplevel .head)
  have hkey : ∀ y, s'.key y = s.key y := fun y => hs' ▸ hkey₁ y
  have hval : ∀ y, s'.val y = s.val y := fun y => hs' ▸ hval₁ y
  have htop : ∀ y, s'.toplevel y = s.toplevel y := fun y => hs' ▸ htop₁ y
  have hcount : s'.count () = s.count () := by
    rw [hs']
    refine foldl_same (f := SkiplistSeq.unlink k a) (fun s => s.count ()) (fun s i => ?_) s _
    unfold SkiplistSeq.unlink
    split <;> rfl
  have hnext : ∀ y i, i < levelmax → y ≠ predAt s lo i → s'.next y i = s.next y i := by
    intro y i hi' hyp
    rw [hs']
    exact hnext₁ y i (Or.inr (Or.inl (by rwa [(ha i i.zero_le hi').1])))
  -- the levels of the node
  have hself : ∀ i < levelmax, i < s.toplevel x → s'.next (predAt s lo i) i = s.next x i := by
    intro i hi' hix
    have hsx : a.succs i = x := by
      rw [(ha i i.zero_le hi').2, succAt, tall_cons_of_lt hix]
      rfl
    have := hself₁ i (by rw [h.head_top]; exact hi') (by rw [hsx]; exact hx)
    rw [(ha i i.zero_le hi').1, hsx] at this
    rw [hs']
    exact this
  -- and those above it
  have habove : ∀ i < levelmax, s.toplevel x ≤ i → ∀ y, s'.next y i = s.next y i := by
    intro i hi' hxi y
    rw [hs']
    refine hnext₁ y i (Or.inr (Or.inr ?_))
    rw [(ha i i.zero_le hi').2, succAt, tall_cons_of_le hxi]
    rcases hl : tall s i hi with _ | ⟨z, l⟩
    · change s.key .tail ≠ k
      rw [h.tail_key, ← hx]
      exact (h.keys x hxl).ne'
    · have hz : z ∈ hi := (mem_tall.mp (show z ∈ tall s i hi by rw [hl]; exact List.mem_cons_self)).1
      have hlt := (List.pairwise_cons.mp (List.pairwise_append.mp h.sorted).2.1).1 z hz
      rw [hx] at hlt
      exact hlt.ne'
  have hsub : (lo ++ hi).Sublist (lo ++ x :: hi) := (List.sublist_cons_self x hi).append_left lo
  have htall : ∀ i l, tall s' i l = tall s i l := fun i l => tall_congr fun y _ => htop y
  refine ⟨⟨fun i hi' => ?_, ?_, fun y hy => ?_, fun y hy => ?_, fun y hy => ?_, ?_, fun y hy => ?_,
    ?_, ?_, ?_⟩, ?_⟩
  · have hl := h.level_append hi'
    rw [Level, htall, tall_append]
    rcases Nat.lt_or_ge i (s.toplevel x) with hix | hix
    · rw [tall_cons_of_lt hix] at hl
      exact hl.unlink (congrArg Ref.ptr (hself i hi' hix)) fun y _ hy =>
        congrArg Ref.ptr (hnext y i hi' hy)
    · rw [tall_cons_of_le hix] at hl
      exact hl.congr fun y _ => congrArg Ref.ptr (habove i hi' hix y)
  · refine (h.sorted.sublist hsub).imp fun {y z} hyz => ?_
    rw [hkey, hkey]
    exact hyz
  · rw [hkey]
    exact h.keys y (hsub.subset hy)
  · rw [htop]
    exact h.top y (hsub.subset hy)
  · rw [hcount]
    exact h.node y (hsub.subset hy)
  · rw [hcount]
    exact hsub.length_le.trans h.size
  · obtain ⟨hx0, hxm⟩ := h.top x hxl
    by_cases hyp : y = predAt s lo 0
    · rw [succ, hyp, hself 0 (hx0.trans_le hxm) hx0]
      exact h.unmarked x hxl
    · rw [succ, hnext y 0 (hx0.trans_le hxm) hyp]
      exact h.unmarked y (hsub.subset hy)
  · rw [htop]
    exact h.head_top
  · rw [hkey]
    exact h.tail_key
  · obtain ⟨hx0, hxm⟩ := h.top x hxl
    rw [hnext _ 0 (hx0.trans_le hxm) (h.ne_tail (pred_mem s lo (x :: hi) 0)).symm]
    exact h.tail_next
  · have he : entry s' = entry s := by
      funext y
      rw [entry, hkey, hval]
      rfl
    rw [List.map_append, he]

end Rep

theorem randLevels_bound (randRange : ℕ → ℕ) (i level drawn : ℕ) :
    level ≤ (randLevels randRange i level drawn).1 ∧
      (randLevels randRange i level drawn).1 ≤ level + i := by
  induction i generalizing level drawn with
  | zero => exact ⟨le_rfl, le_rfl⟩
  | succ i ih =>
    unfold randLevels
    split
    · have := ih (level + 1) (drawn + 1)
      omega
    · exact ⟨le_rfl, Nat.le_add_right level (i + 1)⟩

/-- `1 <= level <= levelmax`, as its comment says. -/
theorem getRandLevel_bound (hpos : 1 ≤ levelmax) (randRange : ℕ → ℕ) (drawn : ℕ) :
    0 < (getRandLevel levelmax randRange drawn).1 ∧
      (getRandLevel levelmax randRange drawn).1 ≤ levelmax := by
  have := randLevels_bound randRange (levelmax - 1) 1 drawn
  unfold getRandLevel
  omega

theorem countFrom_eq {p : Ptr Unit} (hpath : Path (succ s 0) .tail p l)
    (hnode : ∀ x ∈ l, ∃ i, x = .node () i ∧ i < s.count ())
    (hunmarked : ∀ x ∈ l, s.next x 0 = (succ s 0 x).ref) (ht : s.next .tail 0 = Ptr.null.ref)
    {rounds : ℕ} (hr : l.length < rounds) (count : BitVec 32) :
    countFrom s rounds count p = some (count + BitVec.ofNat 32 l.length) := by
  induction l generalizing p rounds count with
  | nil =>
    obtain ⟨r, rfl⟩ := Nat.exists_eq_succ_of_ne_zero (Nat.ne_zero_of_lt hr)
    obtain rfl : p = .tail := hpath
    simp [countFrom, ht]
  | cons x l ih =>
    obtain ⟨r, rfl⟩ := Nat.exists_eq_succ_of_ne_zero (Nat.ne_zero_of_lt hr)
    obtain ⟨rfl, -, hpath⟩ := hpath
    have hp := hunmarked p List.mem_cons_self
    have hne : s.next p 0 ≠ Ptr.null.ref := by
      rw [hp, hpath.eq_headD]
      cases l with
      | nil => nofun
      | cons y l =>
        obtain ⟨i, rfl, -⟩ := hnode y (by simp)
        nofun
    have hm : isMarked (s.next p 0) = false := by rw [hp]; rfl
    rw [countFrom, if_pos hne, hm]
    change countFrom s r (count + 1) (succ s 0 p) = _
    rw [ih hpath (fun y hy => hnode y (List.mem_cons_of_mem _ hy))
      (fun y hy => hunmarked y (List.mem_cons_of_mem _ hy)) (Nat.lt_of_succ_lt_succ hr)]
    rw [List.length_cons, BitVec.ofNat_add, BitVec.add_assoc, BitVec.add_comm (1 : BitVec 32)]
    rfl

/-- The call does to the nodes what it does to a sorted list of entries. -/
def CallOk (levelmax : ℕ) (randRange : ℕ → ℕ) (op : SeqCall K V) (q : SkipHeap Unit K V × ℕ)
    (l : List (Ptr Unit)) : Prop :=
  ∃ q' l' r, (machine K V levelmax randRange).apply op q = some (q', r) ∧
    (sortedList K V).apply op (l.map (entry q.1)) = some (l'.map (entry q'.1), r) ∧
    Rep levelmax q'.1 l'

section calls

variable (hpos : 1 ≤ levelmax) (hmax : levelmax ≤ maxLevel) (hk : k < ⊤)

include hpos hk

theorem search_ok (h : Rep levelmax s l) :
    CallOk levelmax randRange (.call (.search k)) (s, drawn) l := by
  obtain ⟨lo, hi, rfl, hc⟩ := exists_cut h.sorted k
  obtain ⟨node, next, ⟨⟩, hd, -, hlast⟩ := h.descend_eq hc hk (fun _ _ (a : Unit) => some a)
    (fun _ _ => True) (fun _ a _ _ => ⟨a, rfl, trivial⟩) (le_refl levelmax) .null () trivial
    fun _ _ => List.mem_cons_self
  obtain ⟨rfl, -⟩ := hlast hpos
  have hce : Cut Prod.fst k (lo.map (entry s)) (hi.map (entry s)) := hc.map fun _ _ => rfl
  refine ⟨(s, drawn), lo ++ hi,
    .answer (.val (if s.key (hi.headD .tail) = k then s.val (hi.headD .tail) else 0)), ?_, ?_, h⟩
  · simp only [machine, search, h.head_top, hd, Option.map_some, h.succ_predAt hpos, h.succAt_zero]
  · rw [List.map_append, sortedList_search hce]
    by_cases he : k = s.key (hi.headD .tail)
    · obtain ⟨x, hi, rfl, hx, hv⟩ := h.exists_cons hk he
      rw [hv, if_pos he.symm]
      rfl
    · rw [firstVal_map (e := entry s) he, if_neg (Ne.symm he)]
      rfl

include hmax

/-- Where `insert` and `remove` are after the loop over the levels. -/
theorem descend_lists (hc : Cut s.key k lo hi) (h : Rep levelmax s (lo ++ hi)) :
    ∃ a, descend s k (Lists.record s) levelmax .head .null noLists =
      some (predAt s lo 0, succAt s hi 0, a) ∧ Recorded levelmax s lo hi 0 a := by
  obtain ⟨node, next, a, hd, ha, hlast⟩ := h.descend_eq hc hk (Lists.record s)
    (Recorded levelmax s lo hi) (fun _ _ hi' ha => ha.record h hmax hi') (le_refl levelmax) .null
    noLists (fun _ _ _ => by omega) fun _ _ => List.mem_cons_self
  obtain ⟨rfl, rfl⟩ := hlast hpos
  exact ⟨a, hd, ha⟩

theorem insert_ok (h : Rep levelmax s l) (v : V) :
    CallOk levelmax randRange (.call (.insert k v)) (s, drawn) l := by
  obtain ⟨lo, hi, rfl, hc⟩ := exists_cut h.sorted k
  obtain ⟨a, hd, ha⟩ := descend_lists hpos hmax hk hc h
  have hce : Cut Prod.fst k (lo.map (entry s)) (hi.map (entry s)) := hc.map fun _ _ => rfl
  by_cases he : k = s.key (hi.headD .tail)
  · obtain ⟨x, hi, rfl, hx, hv⟩ := h.exists_cons hk he
    refine ⟨(s, drawn), lo ++ x :: hi, .answer (.flag false), ?_, ?_, h⟩
    · simp only [machine, insert, h.head_top, hd, Option.map_some, h.succ_predAt hpos, h.succAt_zero,
        ne_eq, he.symm, not_true_eq_false, if_false]
    · rw [List.map_append, sortedList_insert_some hce hv]
  · rcases hl : getRandLevel levelmax randRange drawn with ⟨m, drawn'⟩
    have hm : 0 < m ∧ m ≤ levelmax := by
      have := getRandLevel_bound hpos randRange drawn
      rwa [hl] at this
    rcases halloc : s.allocateSlSimpleUnlinked () k v m with ⟨s₁, n⟩
    obtain ⟨h', hl'⟩ := h.link hc hk he hm ha halloc rfl
    refine ⟨(_, drawn'), _, .answer (.flag true), ?_, ?_, h'⟩
    · simp only [machine, insert, h.head_top, hd, Option.map_some, h.succ_predAt hpos, h.succAt_zero,
        ne_eq, Ne.symm he, not_false_eq_true, if_true, hl, halloc]
    · rw [List.map_append, sortedList_insert_none hce (firstVal_map (e := entry s) he), hl']

theorem remove_ok (h : Rep levelmax s l) :
    CallOk levelmax randRange (.call (.remove k)) (s, drawn) l := by
  obtain ⟨lo, hi, rfl, hc⟩ := exists_cut h.sorted k
  obtain ⟨a, hd, ha⟩ := descend_lists hpos hmax hk hc h
  have hce : Cut Prod.fst k (lo.map (entry s)) (hi.map (entry s)) := hc.map fun _ _ => rfl
  by_cases he : k = s.key (hi.headD .tail)
  · obtain ⟨x, hi, rfl, hx, hv⟩ := h.exists_cons hk he
    obtain ⟨s', hs'⟩ : ∃ s', s' =
      ((List.range (s.toplevel .head)).foldl (unlink k a) s).ssmemFree x := ⟨_, rfl⟩
    obtain ⟨h', hl'⟩ := h.unlink hx ha hs'
    refine ⟨(s', drawn), lo ++ hi, .answer (.val (s.val x)), ?_, ?_, h'⟩
    · rw [h.head_top] at hs'
      simp only [machine, remove, h.head_top, hd, Option.map_some, h.succAt_zero, List.headD_cons, hx,
        if_true, hs']
    · rw [List.map_append, sortedList_remove_some hce hv, hl']
      rfl
  · refine ⟨(s, drawn), lo ++ hi, .answer (.val 0), ?_, ?_, h⟩
    · simp only [machine, remove, h.head_top, hd, Option.map_some, h.succAt_zero, if_neg (Ne.symm he)]
    · rw [List.map_append, sortedList_remove_none hce (firstVal_map (e := entry s) he)]

end calls

theorem length_ok (hpos : 1 ≤ levelmax) (h : Rep levelmax s l) :
    CallOk levelmax randRange .length (s, drawn) l := by
  refine ⟨(s, drawn), l, .length (BitVec.ofNat 32 l.length), ?_, by simp [sortedList], h⟩
  have hr : l.length < rounds s := Nat.lt_succ_of_le h.size
  have hl := h.level 0 hpos
  rw [h.tall_zero] at hl
  have hc := countFrom_eq hl.2.2 h.node h.unmarked h.tail_next hr 0
  rw [zero_add] at hc
  change Option.map _ (countFrom s (rounds s) 0 (succ s 0 .head)) = _
  rw [hc]
  rfl

/-- **Every call does to the nodes what it does to a sorted list of entries.** -/
theorem call_ok (randRange : ℕ → ℕ) (hpos : 1 ≤ levelmax) (hmax : levelmax ≤ maxLevel)
    {op : SeqCall K V} {q : SkipHeap Unit K V × ℕ} (h : Rep levelmax q.1 l) (hop : op.Client) :
    CallOk levelmax randRange op q l := by
  cases op with
  | call op =>
    cases op with
    | search k => exact search_ok hpos hop.2.1 h
    | insert k v => exact insert_ok hpos hmax hop.2.1 h v
    | remove k => exact remove_ok hpos hmax hop.2.1 h
  | length => exact length_ok hpos h

/-! ### Against the sequential list -/

/-- Every level is sorted by key, and its nodes are those of level 0 that have it. -/
def LevelsOk (levelmax : ℕ) (s : SkipHeap Unit K V) : Prop :=
  ∃ l₀, Level s 0 l₀ ∧ ∀ i < levelmax, ∃ l, Level s i l ∧ l.Pairwise (fun x y => s.key x < s.key y) ∧
    ∀ x, x ∈ l ↔ x ∈ l₀ ∧ i < s.toplevel x

theorem Rep.levelsOk (hpos : 1 ≤ levelmax) (h : Rep levelmax s l) : LevelsOk levelmax s := by
  have hl := h.level 0 hpos
  rw [h.tall_zero] at hl
  exact ⟨l, hl, fun i hi => ⟨tall s i l, h.level i hi, h.sorted.filter _, fun x => mem_tall⟩⟩

/-- The nodes of both hold the same entries. -/
def Sim (levelmax : ℕ) (q : SkipHeap Unit K V × ℕ) (t : Heap Unit K V) : Prop :=
  ∃ l m, Rep levelmax q.1 l ∧ LinkedListSeq.Rep t m ∧
    l.map (entry q.1) = m.map (LinkedListSeq.entry t)

/-- One call keeps them alike, with the same answer. -/
theorem Sim.step (hpos : 1 ≤ levelmax) (hmax : levelmax ≤ maxLevel) {q : SkipHeap Unit K V × ℕ}
    {t : Heap Unit K V} {op : SeqCall K V} (h : Sim levelmax q t) (hop : op.Client) :
    ∃ q' t' r, (machine K V levelmax randRange).apply op q = some (q', r) ∧
      (LinkedListSeq.machine K V).apply op t = some (t', r) ∧ Sim levelmax q' t' := by
  obtain ⟨l, m, hl, hm, heq⟩ := h
  obtain ⟨q', l', r, hq, hlist, hl'⟩ := call_ok randRange hpos hmax hl hop
  obtain ⟨t', m', r', ht, hlist', hm'⟩ := LinkedListSeq.call_ok hm hop
  rw [heq, hlist', Option.some.injEq, Prod.mk.injEq] at hlist
  obtain ⟨heq', rfl⟩ := hlist
  exact ⟨q', t', r', hq, ht, l', m', hl', hm', heq'.symm⟩

/-- **The skip list answers as the sequential list does**, and after every call
its levels are sorted and have the nodes that are tall enough. -/
theorem skiplist_seq_refines (hpos : 1 ≤ levelmax) (hmax : levelmax ≤ maxLevel) (randRange : ℕ → ℕ)
    (ops : List (SeqCall K V)) (hops : ∀ op ∈ ops, op.Client) :
    ∃ q t rs, (machine K V levelmax randRange).run ops (machine K V levelmax randRange).init =
        some (q, rs) ∧
      (LinkedListSeq.machine K V).run ops (LinkedListSeq.machine K V).init = some (t, rs) ∧
      LevelsOk levelmax q.1 := by
  have hinit : Sim levelmax (machine K V levelmax randRange).init (LinkedListSeq.machine K V).init :=
    ⟨[], [], .initial levelmax, .initial, rfl⟩
  obtain ⟨q, t, rs, hq, ht, l, m, hl, -, -⟩ := Machine.run_of_sim (Sim levelmax)
    (fun h hop => h.step hpos hmax hop) ops _ _ hinit hops
  exact ⟨q, t, rs, hq, ht, hl.levelsOk hpos⟩

/-- Calls that link and unlink nodes at several levels. -/
def someCalls : List (SeqCall (Fin 20) ℕ) :=
  [.call (.insert 5 7), .call (.insert 3 1), .call (.insert 9 4), .call (.insert 5 8),
    .call (.search 9), .length, .call (.remove 5), .call (.remove 5), .call (.search 3), .length]

/-- Draws for them. -/
def someDraws (i : ℕ) : ℕ := i * 37 % 101

theorem skiplist_seq_refines_calls :
    ∃ q t rs, (machine (Fin 20) ℕ 4 someDraws).run someCalls (SkipHeap.empty 4, 0) = some (q, rs) ∧
      (LinkedListSeq.machine (Fin 20) ℕ).run someCalls Heap.empty = some (t, rs) ∧
      LevelsOk 4 q.1 :=
  skiplist_seq_refines (by decide) (by decide) someDraws someCalls fun op hop => by
    simp only [someCalls, List.mem_cons, List.not_mem_nil, or_false] at hop
    rcases hop with rfl | rfl | rfl | rfl | rfl | rfl | rfl | rfl | rfl | rfl <;>
      first | trivial | exact ⟨by decide, by decide, by rintro _ _ ⟨⟩ <;> decide⟩

/-- What the calls answer. -/
example : (machine (Fin 20) ℕ 4 someDraws).answers someCalls =
    some [.answer (.flag true), .answer (.flag true), .answer (.flag true), .answer (.flag false),
      .answer (.val 4), .length 3, .answer (.val 7), .answer (.val 0), .answer (.val 1),
      .length 2] := by
  decide +kernel

end SkiplistSeq

end Ascylib
