/-
# The blocks of the copy-on-write list

`src/aux/ll_array.h` asks for a block that holds an `ll_array` and
`array_ll_fixed_size` nodes, and sets `nodes` to
`(node_ll *) (uintptr_t)all + sizeof(ll_array)`. The cast comes first, so this
is `sizeof(ll_array)` nodes after the start of the block, not as many bytes, and
the last slots lie behind the block.

What one call touches, when it is the only one that runs: an `insert` the slots
up to the one with its key, or up to the new one; a `remove` all slots, or
those that its search reads. `slots_in_block` says for which lists all of them
lie in their blocks.

Key definitions: `blockBytes`, `InBlock`, `LinkedListCopy.reach`.
Key theorem: `LinkedListCopy.slots_in_block`.
-/
import Ascylib.LinkedListCopy
import Ascylib.Concur.Solo

set_option linter.unusedSectionVars false

namespace Ascylib

open Concur

/-- `sizeof(ll_array)`: a `size_t` and a pointer. -/
def sizeofLlArray : ℕ := 16

/-- `sizeof(ll_array) + array_ll_fixed_size * sizeof(node_ll)`, of type `size_t`. -/
def blockBytes (fixedSize sizeofNode : ℕ) : ℕ := (sizeofLlArray + fixedSize * sizeofNode) % 2 ^ 64

/-- Where `nodes[i]` is, in bytes from the start of the block. -/
def slotOffset (sizeofNode i : ℕ) : ℕ := (sizeofLlArray + i) * sizeofNode

/-- Slot `i` lies in its block. -/
def InBlock (fixedSize sizeofNode i : ℕ) : Prop :=
  slotOffset sizeofNode i + sizeofNode ≤ blockBytes fixedSize sizeofNode

/-- The first `n` slots lie in their block. -/
def Fits (fixedSize sizeofNode n : ℕ) : Prop :=
  n = 0 ∨ (sizeofLlArray + n) * sizeofNode ≤ blockBytes fixedSize sizeofNode

theorem Fits.slot {fixedSize sizeofNode n i : ℕ} (h : Fits fixedSize sizeofNode n) (hi : i < n) :
    InBlock fixedSize sizeofNode i := by
  rcases h with rfl | h
  · exact absurd hi (Nat.not_lt_zero i)
  · calc slotOffset sizeofNode i + sizeofNode = (sizeofLlArray + i + 1) * sizeofNode :=
          (Nat.succ_mul _ _).symm
      _ ≤ (sizeofLlArray + n) * sizeofNode := Nat.mul_le_mul_right _ (by omega)
      _ ≤ blockBytes fixedSize sizeofNode := h

theorem InBlock.fits {fixedSize sizeofNode n : ℕ} (h : InBlock fixedSize sizeofNode n) :
    Fits fixedSize sizeofNode (n + 1) := by
  refine Or.inr ?_
  calc (sizeofLlArray + (n + 1)) * sizeofNode = (sizeofLlArray + n) * sizeofNode + sizeofNode :=
        Nat.succ_mul _ _
    _ ≤ blockBytes fixedSize sizeofNode := h

namespace LinkedListCopy

variable {T K V Λ : Type*} [DecidableEq T] [DecidableEq K] [Zero V] [DecidableEq V]

/-- The slot that the next access reads or writes. -/
def slot : Pc T K V → Option (Ptr T × ℕ)
  | .searchKey currentList i | .searchVal currentList i => some (currentList, i)
  | .key x | .removed x | .loadKey x | .loadVal x => some (x.allOld, x.i)
  | .setKey x _ | .setVal x _ => some (x.allNew, x.n)
  | .lastKey x | .lastVal x => some (x.allNew, x.i)
  | _ => none

/-- The place of the key in the list, or the length of the list. -/
def place (l : List (NodeLl K V)) (k : K) : ℕ := l.findIdx (·.key = k)

/-- How many slots a call touches, when the list has these entries. -/
def reach (roFail : Bool) : Call K V → List (NodeLl K V) → ℕ
  | .search k, l => min (place l k + 1) l.length
  | .insert k _, l => place l k + 1
  | .remove k, l =>
    if roFail = true ∧ (valOf l k).getD 0 = 0 then min (place l k + 1) l.length else l.length

section place

variable (a : LlArray K V) {k : K} {i : ℕ}

theorem place_le : place a.entries k ≤ a.size := by
  have h : place a.entries k ≤ a.entries.length := List.findIdx_le_length
  rwa [LlArray.entries, LlArray.length_slots] at h

theorem key_of_lt_place (h : i < place a.entries k) : (a.nodes i).key ≠ k := by
  have hn := List.not_of_lt_findIdx h
  simpa [LlArray.entries, LlArray.slots] using hn

theorem key_of_place (h : place a.entries k < a.size) : (a.nodes (place a.entries k)).key = k := by
  have hl : a.entries.findIdx (fun e => decide (e.key = k)) < a.entries.length := by
    rwa [LlArray.entries, LlArray.length_slots]
  have hk := List.findIdx_getElem (w := hl)
  simpa [LlArray.entries, LlArray.slots, place] using hk

/-- The search goes on. -/
theorem lt_place (h : i ≤ place a.entries k) (hi : i < a.size) (hk : (a.nodes i).key ≠ k) :
    i < place a.entries k := by
  refine Nat.lt_of_le_of_ne h ?_
  rintro rfl
  exact hk (key_of_place a hi)

/-- The search ends. -/
theorem eq_place (h : i ≤ place a.entries k) (hk : (a.nodes i).key = k) :
    i = place a.entries k :=
  Nat.le_antisymm h (Nat.le_of_not_lt fun hlt => key_of_lt_place a hlt hk)

theorem slots_place (h : i ≤ place a.entries k) : valOf (a.slots i) k = none := by
  rw [valOf_eq_none]
  intro e he
  obtain ⟨j, hj, rfl⟩ := List.mem_map.mp he
  exact key_of_lt_place a (Nat.lt_of_lt_of_le (List.mem_range.mp hj) h)

theorem valOf_place (h : place a.entries k < a.size) :
    valOf a.entries k = some (a.nodes (place a.entries k)).val := by
  have hk := key_of_place a h
  have hs : valOf (a.slots (place a.entries k)) (a.nodes (place a.entries k)).key = none := by
    rw [hk]
    exact slots_place a le_rfl
  have he := valOf_entries hs h
  rwa [hk] at he

theorem valOf_not_place (h : place a.entries k = a.size) : valOf a.entries k = none := by
  rw [LlArray.entries, ← h]
  exact slots_place a le_rfl

end place

/-! ### One call alone -/

variable {A : LockOps T Λ} {lock : Λ} {nodes : ℕ → NodeLl K V} {roFail : Bool}
  {pre : Call K V → Prop} {garbage : ℕ → NodeLl K V} {t : T} {s s' : CopyOnWrite T K V Λ}
  {op : Call K V} {l l' : Pc T K V} {a : LlArray K V} {p : Ptr T} {x : Copying T V} {i : ℕ}

/-- The call writes, and if it is a `remove` it will go through all slots. -/
structure Whole (roFail : Bool) (a : LlArray K V) (op : Call K V) : Prop where
  writes : Writes op
  all : ∀ k, op = .remove k → reach roFail op a.entries = a.size

/-- The loop copies the array `a` at `p`. -/
structure Loop (roFail : Bool) (a : LlArray K V) (p : Ptr T) (s : CopyOnWrite T K V Λ)
    (op : Call K V) (x : Copying T V) : Prop where
  whole : Whole roFail a op
  old : x.allOld = p
  new : x.allNew ≠ p
  size : (s.memory.mem x.allNew).size = newSize op a.size
  le : x.n ≤ x.i
  insert : ∀ k v, op = .insert k v → x.n = x.i ∧ x.i ≤ place a.entries k

/-- Where a call is that found the array `a` at `p`. -/
def Spot (roFail : Bool) (a : LlArray K V) (p : Ptr T) (s : CopyOnWrite T K V Λ) (op : Call K V) :
    Pc T K V → Prop
  | .searchList => s.array = p
  | .searchSize y i => s.array = p ∧ y = p ∧ i ≤ place a.entries op.key ∧ i ≤ a.size
  | .searchKey y i => s.array = p ∧ y = p ∧ i ≤ place a.entries op.key ∧ i < a.size
  | .searchVal y i => s.array = p ∧ y = p ∧ i = place a.entries op.key ∧ i < a.size
  | .lock | .loadOld => s.array = p ∧ Whole roFail a op
  | .loadSize y => y = p ∧ Whole roFail a op
  | .alloc y size => y = p ∧ Whole roFail a op ∧ size = newSize op a.size
  | .size x => Loop roFail a p s op x ∧ x.i ≤ a.size
  | .key x => Loop roFail a p s op x ∧ x.i < a.size
  | .removed x => Loop roFail a p s op x ∧ x.i < a.size ∧ op = .remove op.key
  | .loadKey x | .setKey x _ | .loadVal x | .setVal x _ =>
    Loop roFail a p s op x ∧ x.i < a.size ∧ ∀ k v, op = .insert k v → x.i < place a.entries k
  | .lastKey x | .lastVal x =>
    Loop roFail a p s op x ∧ x.i = a.size ∧ op = .insert op.key (value op)
  | .publish _ _ | .unlock _ _ | .delete _ _ | .done _ => True

/-- And the array is still as it was. -/
structure Near (roFail : Bool) (a : LlArray K V) (p : Ptr T) (s : CopyOnWrite T K V Λ)
    (op : Call K V) (l : Pc T K V) : Prop where
  mem : s.memory.mem p = a
  allocated : s.memory.Allocated p
  spot : Spot roFail a p s op l

/-- A call that holds to its spot touches the slots within reach only. -/
theorem Near.lt_reach (h : Near roFail a p s op l) {y : Ptr T} (hl : slot l = some (y, i)) :
    i < reach roFail op a.entries := by
  have hlen : a.entries.length = a.size := LlArray.length_slots a
  have loop : ∀ {x : Copying T V}, Loop roFail a p s op x → x.i < a.size →
      x.i < reach roFail op a.entries := by
    intro x hx hi
    cases hop : op with
    | search k => exact absurd hop (hx.whole.writes k)
    | insert k v => exact Nat.lt_succ_of_le (hx.insert k v hop).2
    | remove k =>
      have hr := hx.whole.all k hop
      rw [hop] at hr
      rwa [hr]
  have search : i ≤ place a.entries op.key → i < a.size → i < reach roFail op a.entries := by
    intro h1 h2
    cases op with
    | search k => exact lt_min (Nat.lt_succ_of_le h1) (hlen ▸ h2)
    | insert k v => exact Nat.lt_succ_of_le h1
    | remove k =>
      by_cases hc : roFail = true ∧ (valOf a.entries k).getD 0 = 0
      · rw [reach, if_pos hc]
        exact lt_min (Nat.lt_succ_of_le h1) (hlen ▸ h2)
      · rw [reach, if_neg hc, hlen]
        exact h2
  have last : ∀ {x : Copying T V}, Loop roFail a p s op x → op = .insert op.key (value op) →
      x.i < reach roFail op a.entries := by
    intro x hx hop
    have h2 := (hx.insert _ _ hop).2
    rw [hop]
    exact Nat.lt_succ_of_le h2
  have hs := h.spot
  cases l with
  | searchKey y i =>
    cases hl
    exact search hs.2.2.1 hs.2.2.2
  | searchVal y i =>
    cases hl
    exact search hs.2.2.1.le hs.2.2.2
  | key x =>
    cases hl
    exact loop hs.1 hs.2
  | removed x =>
    cases hl
    exact loop hs.1 hs.2.1
  | loadKey x =>
    cases hl
    exact loop hs.1 hs.2.1
  | loadVal x =>
    cases hl
    exact loop hs.1 hs.2.1
  | setKey x k =>
    cases hl
    exact Nat.lt_of_le_of_lt hs.1.le (loop hs.1 hs.2.1)
  | setVal x v =>
    cases hl
    exact Nat.lt_of_le_of_lt hs.1.le (loop hs.1 hs.2.1)
  | lastKey x =>
    cases hl
    exact last hs.1 hs.2.2
  | lastVal x =>
    cases hl
    exact last hs.1 hs.2.2
  | _ => cases hl

/-- What a search found decides whether a `remove` goes through all slots. -/
theorem Spot.searched (hs : s.array = p) {v : V}
    (hv : v = (valOf a.entries op.key).getD 0) : Spot roFail a p s op (searched op v) := by
  have hlen : a.entries.length = a.size := LlArray.length_slots a
  cases op with
  | search k => trivial
  | insert k w =>
    by_cases h0 : v = 0
    · rw [LinkedListCopy.searched, if_neg (not_not.mpr h0)]
      exact ⟨hs, fun _ h => (by cases h), fun _ h => by cases h⟩
    · rw [LinkedListCopy.searched, if_pos h0]
      trivial
  | remove k =>
    by_cases h0 : v = 0
    · rw [LinkedListCopy.searched, if_pos h0]
      trivial
    · rw [LinkedListCopy.searched, if_neg h0]
      refine ⟨hs, fun _ h => (by cases h), fun j hj => ?_⟩
      cases hj
      rw [reach, if_neg, hlen]
      rintro ⟨-, h⟩
      exact h0 (hv.trans h)

/-- The loop after one of its accesses. -/
theorem Loop.step (h : Loop roFail a p s op x) {y : Copying T V}
    (hs : (s'.memory.mem x.allNew).size = (s.memory.mem x.allNew).size)
    (hold : y.allOld = x.allOld) (hnew : y.allNew = x.allNew) (hle : y.n ≤ y.i)
    (hins : ∀ k v, op = .insert k v → y.n = y.i ∧ y.i ≤ place a.entries k) :
    Loop roFail a p s' op y := by
  refine ⟨h.whole, hold.trans h.old, hnew ▸ h.new, ?_, hle, hins⟩
  rw [hnew, hs]
  exact h.size

theorem Near.written (h : Near roFail a p s op l) (i : ℕ) : written l ≠ some (p, i) := by
  intro hw
  have hs := h.spot
  cases l with
  | setKey x k =>
    cases hw
    exact hs.1.new rfl
  | setVal x v =>
    cases hw
    exact hs.1.new rfl
  | lastKey x =>
    cases hw
    exact hs.1.new rfl
  | lastVal x =>
    cases hw
    exact hs.1.new rfl
  | _ => cases hw

theorem Spot.step (h : Near roFail a p s op l) (hstep : step A garbage t s op l = some (s', l')) :
    Spot roFail a p s' op l' := by
  obtain ⟨hmem, hall, h⟩ := h
  cases l with
  | searchList =>
    cases hstep
    exact ⟨h, h, Nat.zero_le _, Nat.zero_le _⟩
  | searchSize y i =>
    cases hstep
    obtain ⟨h, rfl, h1, h2⟩ := h
    rw [hmem]
    by_cases hi : i < a.size
    · rw [if_pos hi]
      exact ⟨h, rfl, h1, hi⟩
    · rw [if_neg hi]
      refine Spot.searched h ?_
      have hplace := place_le a (k := op.key)
      rw [valOf_not_place a (by omega)]
      rfl
  | searchKey y i =>
    cases hstep
    obtain ⟨h, rfl, h1, h2⟩ := h
    rw [hmem]
    by_cases hk : (a.nodes i).key = op.key
    · rw [if_pos hk]
      exact ⟨h, rfl, eq_place a h1 hk, h2⟩
    · rw [if_neg hk]
      exact ⟨h, rfl, lt_place a h1 h2 hk, h2⟩
  | searchVal y i =>
    cases hstep
    obtain ⟨h, rfl, rfl, h2⟩ := h
    rw [hmem]
    refine Spot.searched h ?_
    rw [valOf_place a h2]
    rfl
  | lock =>
    obtain ⟨word, hw, he⟩ := Option.map_eq_some_iff.mp hstep
    cases he
    exact h
  | loadOld =>
    cases hstep
    exact h
  | loadSize y =>
    cases hstep
    obtain ⟨rfl, h⟩ := h
    exact ⟨rfl, h, by rw [hmem]⟩
  | alloc y size =>
    cases hstep
    obtain ⟨rfl, h, rfl⟩ := h
    refine ⟨⟨h, rfl, (fresh_ne hall).symm, ?_, le_rfl, fun k v _ => ⟨rfl, Nat.zero_le _⟩⟩,
      Nat.zero_le _⟩
    exact congrArg LlArray.size
      (s.memory.mem_allocate_self (⟨newSize op a.size, garbage⟩ : LlArray K V) t)
  | size x =>
    cases hstep
    obtain ⟨h, hi⟩ := h
    rw [h.old, hmem]
    by_cases hlt : x.i < a.size
    · rw [if_pos hlt]
      exact ⟨h, hlt⟩
    · rw [if_neg hlt]
      cases op with
      | search k => exact absurd rfl (h.whole.writes k)
      | insert k v => exact ⟨h, Nat.le_antisymm hi (Nat.le_of_not_lt hlt), rfl⟩
      | remove k => by_cases hx : x.removed = 0 <;> simp [copied, hx, Spot]
  | key x =>
    cases hstep
    obtain ⟨h, hi⟩ := h
    rw [h.old, hmem]
    by_cases hk : (a.nodes x.i).key = op.key
    · rw [if_pos hk]
      cases op with
      | search k => exact absurd rfl (h.whole.writes k)
      | insert k v => trivial
      | remove k => exact ⟨h, hi, rfl⟩
    · rw [if_neg hk]
      refine ⟨h, hi, fun k v hop => ?_⟩
      subst hop
      exact lt_place a (h.insert k v rfl).2 hi hk
  | removed x =>
    cases hstep
    obtain ⟨h, hi, hop⟩ := h
    refine ⟨h.step rfl rfl rfl (Nat.le_succ_of_le h.le) fun k v he => ?_, hi⟩
    rw [hop] at he
    cases he
  | loadKey x =>
    cases hstep
    exact h
  | loadVal x =>
    cases hstep
    exact h
  | setKey x k =>
    cases hstep
    obtain ⟨h, h1, h2⟩ := h
    exact ⟨h.step (by simp) rfl rfl h.le h.insert, h1, h2⟩
  | setVal x v =>
    cases hstep
    obtain ⟨h, h1, h2⟩ := h
    exact ⟨h.step (by simp) rfl rfl (Nat.succ_le_succ h.le) fun k w hop =>
      ⟨congrArg (· + 1) (h.insert k w hop).1, h2 k w hop⟩, h1⟩
  | lastKey x =>
    cases hstep
    obtain ⟨h, h1, h2⟩ := h
    exact ⟨h.step (by simp) rfl rfl h.le h.insert, h1, h2⟩
  | lastVal x =>
    cases hstep
    trivial
  | publish x r =>
    cases hstep
    trivial
  | unlock toDelete r =>
    cases hstep
    trivial
  | delete toDelete r =>
    cases hstep
    trivial
  | done r =>
    cases hstep
    trivial

theorem Near.step (h : Near roFail a p s op l) (hstep : step A garbage t s op l = some (s', l')) :
    Near roFail a p s' op l' :=
  ⟨(step_mem hstep h.allocated h.written).trans h.mem, step_allocated hstep h.allocated, .step h hstep⟩

/-! ### How far a call goes -/

/-- The list, whatever its clients do. -/
abbrev listOf (A : LockOps T Λ) (lock : Λ) (nodes : ℕ → NodeLl K V) (roFail : Bool)
    (pre : Call K V → Prop) := { program A lock nodes roFail with pre := pre }

section goes

variable {q : CopyOnWrite T K V Λ × Pc T K V}

theorem Near.goes (h : Near roFail a p q.1 op q.2) {q' : CopyOnWrite T K V Λ × Pc T K V}
    (hg : (listOf A lock nodes roFail pre).Goes t op q q') : Near roFail a p q'.1 op q'.2 :=
  hg.keeps (I := fun s l => Near roFail a p s op l) h fun h _ hstep => h.step hstep

/-- The search comes to every slot up to the place of its key. -/
theorem goes_search (hmem : s.memory.mem p = a)
    (hg : (listOf A lock nodes roFail pre).Goes t op q (s, .searchList)) (harr : s.array = p) :
    ∀ i, i ≤ place a.entries op.key → i ≤ a.size →
      (listOf A lock nodes roFail pre).Goes t op q (s, .searchSize p i) := by
  intro i
  induction i with
  | zero =>
    intro _ _
    exact hg.step nodes _ _ rfl (by rw [← harr]; rfl)
  | succ i ih =>
    intro h1 h2
    have hsize := ih (Nat.le_of_succ_le h1) (Nat.le_of_succ_le h2)
    have hkey := hsize.step nodes s (.searchKey p i) rfl
      (by simp [program, LinkedListCopy.step, hmem, Nat.lt_of_succ_le h2])
    exact hkey.step nodes _ _ rfl
      (by simp [program, LinkedListCopy.step, hmem, key_of_lt_place a (Nat.lt_of_succ_le h1)])

theorem goes_searchKey (hmem : s.memory.mem p = a)
    (hg : (listOf A lock nodes roFail pre).Goes t op q (s, .searchList)) (harr : s.array = p)
    (h1 : i ≤ place a.entries op.key) (h2 : i < a.size) :
    (listOf A lock nodes roFail pre).Goes t op q (s, .searchKey p i) :=
  (goes_search hmem hg harr i h1 h2.le).step nodes _ _ rfl
    (by simp [program, LinkedListCopy.step, hmem, h2])

/-- And it ends with what the list holds for the key. -/
theorem goes_searched (hmem : s.memory.mem p = a)
    (hg : (listOf A lock nodes roFail pre).Goes t op q (s, .searchList)) (harr : s.array = p) :
    (listOf A lock nodes roFail pre).Goes t op q
      (s, searched op ((valOf a.entries op.key).getD 0)) := by
  rcases Nat.lt_or_eq_of_le (place_le a (k := op.key)) with h | h
  · have hkey := goes_searchKey hmem hg harr le_rfl h
    have hval := hkey.step nodes s (.searchVal p (place a.entries op.key)) rfl
      (by simp [program, LinkedListCopy.step, hmem, key_of_place a h])
    rw [valOf_place a h]
    exact hval.step nodes _ _ rfl (by simp [program, LinkedListCopy.step, hmem])
  · have hsize := goes_search hmem hg harr a.size h.ge le_rfl
    rw [valOf_not_place a h]
    exact hsize.step nodes _ _ rfl (by simp [program, LinkedListCopy.step, hmem])

/-- With the lock the call comes to its loop. -/
theorem goes_loop (hg : (listOf A lock nodes roFail pre).Goes t op q (s, .lock))
    (hlock : (A.lock t s.lock).isSome) :
    ∃ s' x, (listOf A lock nodes roFail pre).Goes t op q (s', .size x) ∧ x.i = 0 := by
  obtain ⟨w, hw⟩ := Option.isSome_iff_exists.mp hlock
  have h1 := hg.step nodes { s with lock := w } .loadOld rfl
    (by simp [program, LinkedListCopy.step, hw])
  have h2 := h1.step nodes _ _ rfl rfl
  have h3 := h2.step nodes _ _ rfl rfl
  have h4 := h3.step nodes _ _ rfl rfl
  exact ⟨_, _, h4, rfl⟩

/-- The loop comes to every slot, an `insert` only up to the place of its key. -/
theorem goes_size (hn : Near roFail a p q.1 op q.2)
    (hg : ∃ s' x, (listOf A lock nodes roFail pre).Goes t op q (s', .size x) ∧ x.i = 0) :
    ∀ i, i ≤ a.size → (∀ k v, op = .insert k v → i ≤ place a.entries k) →
      ∃ s' x, (listOf A lock nodes roFail pre).Goes t op q (s', .size x) ∧ x.i = i := by
  intro i
  induction i with
  | zero =>
    intro _ _
    exact hg
  | succ i ih =>
    intro h1 h2
    obtain ⟨s', x, hsize, rfl⟩ := ih (Nat.le_of_succ_le h1) fun k v hop => Nat.le_of_succ_le (h2 k v hop)
    obtain ⟨hmem, -, hspot⟩ : Near roFail a p s' _ (.size x) := hn.goes hsize
    obtain ⟨hloop, -⟩ := hspot
    have hlt : x.i < a.size := Nat.lt_of_succ_le h1
    have hkey := hsize.step nodes s' (.key x) rfl
      (by simp [program, LinkedListCopy.step, hloop.old, hmem, hlt])
    by_cases hk : (a.nodes x.i).key = op.key
    · cases hop : op with
      | search k => exact absurd hop (hloop.whole.writes k)
      | insert k v =>
        have hne := key_of_lt_place a (Nat.lt_of_succ_le (h2 k v hop))
        rw [hop] at hk
        exact absurd hk hne
      | remove k =>
        subst hop
        have hrem := hkey.step nodes s' (.removed x) rfl
          (by simp [program, LinkedListCopy.step, hloop.old, hmem, hk, matched])
        exact ⟨_, _, hrem.step nodes _ _ rfl rfl, rfl⟩
    · have h3 := hkey.step nodes s' (.loadKey x) rfl
        (by simp [program, LinkedListCopy.step, hloop.old, hmem, hk])
      have h4 := h3.step nodes _ _ rfl rfl
      have h5 := h4.step nodes _ _ rfl rfl
      have h6 := h5.step nodes _ _ rfl rfl
      exact ⟨_, _, h6.step nodes _ _ rfl rfl, rfl⟩

/-- The call comes to an access of slot `i` of an array that has one. -/
def Touches (P : Program T (Call K V) (Answer V) (CopyOnWrite T K V Λ) (Pc T K V) (ℕ → NodeLl K V))
    (t : T) (op : Call K V) (q : CopyOnWrite T K V Λ × Pc T K V) (i : ℕ) : Prop :=
  ∃ s' l y, P.Goes t op q (s', l) ∧ slot l = some (y, i) ∧ i < (s'.memory.mem y).size

theorem touches_searchKey (hmem : s.memory.mem p = a)
    (hg : (listOf A lock nodes roFail pre).Goes t op q (s, .searchList)) (harr : s.array = p)
    (h1 : i ≤ place a.entries op.key) (h2 : i < a.size) :
    Touches (listOf A lock nodes roFail pre) t op q i :=
  ⟨s, _, p, goes_searchKey hmem hg harr h1 h2, rfl, by rwa [hmem]⟩

theorem touches_key (hn : Near roFail a p q.1 op q.2)
    (hg : ∃ s' x, (listOf A lock nodes roFail pre).Goes t op q (s', .size x) ∧ x.i = 0)
    (h1 : i < a.size) (h2 : ∀ k v, op = .insert k v → i ≤ place a.entries k) :
    Touches (listOf A lock nodes roFail pre) t op q i := by
  obtain ⟨s', x, hsize, rfl⟩ := goes_size hn hg i h1.le h2
  obtain ⟨hmem, -, hspot⟩ : Near roFail a p s' _ (.size x) := hn.goes hsize
  have hkey := hsize.step nodes s' (.key x) rfl
    (by simp [program, LinkedListCopy.step, hspot.1.old, hmem, h1])
  exact ⟨s', _, x.allOld, hkey, rfl, by rwa [hspot.1.old, hmem]⟩

/-- An `insert` that finds no slot with its key writes a new one. -/
theorem touches_lastKey {k : K} {v : V} (hn : Near roFail a p q.1 (.insert k v) q.2)
    (hg : ∃ s' x, (listOf A lock nodes roFail pre).Goes t (.insert k v) q (s', .size x) ∧ x.i = 0)
    (h : place a.entries k = a.size) :
    Touches (listOf A lock nodes roFail pre) t (.insert k v) q a.size := by
  obtain ⟨s', x, hsize, hx⟩ := goes_size hn hg a.size le_rfl fun j w he => by
    cases he
    exact h.ge
  obtain ⟨hmem, -, hspot⟩ : Near roFail a p s' _ (.size x) := hn.goes hsize
  have hlast := hsize.step nodes s' (.lastKey x) rfl
    (by simp [program, LinkedListCopy.step, hspot.1.old, hmem, hx, copied])
  exact ⟨s', _, x.allNew, hlast, by rw [← hx]; rfl, by rw [hspot.1.size]; exact Nat.lt_succ_self _⟩

theorem Near.start (roFail : Bool) (hmem : s.memory.mem s.array = a) (hall : s.memory.Allocated s.array)
    (op : Call K V) : Near roFail a s.array s op (start roFail op) := by
  refine ⟨hmem, hall, ?_⟩
  cases op with
  | search k => exact (rfl : s.array = s.array)
  | insert k v =>
    cases roFail with
    | true => exact (rfl : s.array = s.array)
    | false => exact ⟨rfl, nofun, nofun⟩
  | remove k =>
    cases roFail with
    | true => exact (rfl : s.array = s.array)
    | false =>
      refine ⟨rfl, nofun, fun j hj => ?_⟩
      rw [reach, if_neg (by simp), LlArray.entries, LlArray.length_slots]

/-- A call that writes comes to the last slot in its reach. -/
theorem touches_last (hmem : s.memory.mem s.array = a) (hall : s.memory.Allocated s.array)
    (hlock : (A.lock t s.lock).isSome) (hw : Writes op) (hne : reach roFail op a.entries ≠ 0) :
    Touches (listOf A lock nodes roFail pre) t op (s, start roFail op)
      (reach roFail op a.entries - 1) := by
  have hn := Near.start roFail hmem hall op
  have hlen : a.entries.length = a.size := LlArray.length_slots a
  have here : (listOf A lock nodes roFail pre).Goes t op (s, start roFail op)
      (s, start roFail op) := .refl
  cases op with
  | search k => exact absurd rfl (hw k)
  | insert k v =>
    change Touches _ t _ _ (place a.entries k)
    have hloop : (listOf A lock nodes roFail pre).Goes t (.insert k v) (s, start roFail (.insert k v))
        (s, .lock) → Touches (listOf A lock nodes roFail pre) t (.insert k v)
          (s, start roFail (.insert k v)) (place a.entries k) := by
      intro hg
      rcases Nat.lt_or_eq_of_le (place_le a (k := k)) with h | h
      · refine touches_key hn (goes_loop hg hlock) h fun j w he => ?_
        cases he
        exact le_rfl
      · rw [h]
        exact touches_lastKey hn (goes_loop hg hlock) h
    cases roFail with
    | false => exact hloop here
    | true =>
      rcases Nat.lt_or_eq_of_le (place_le a (k := k)) with h | h
      · exact touches_searchKey hmem here rfl le_rfl h
      · have hg := goes_searched hmem here rfl
        rw [Call.key, valOf_not_place a h] at hg
        exact hloop (by simpa [searched] using hg)
  | remove k =>
    have hloop : (listOf A lock nodes roFail pre).Goes t (.remove k) (s, start roFail (.remove k))
        (s, .lock) → a.size ≠ 0 → Touches (listOf A lock nodes roFail pre) t (.remove k)
          (s, start roFail (.remove k)) (a.size - 1) := fun hg h0 =>
      touches_key hn (goes_loop hg hlock) (by omega) fun _ _ h => by cases h
    cases roFail with
    | false =>
      rw [reach, if_neg (by simp), hlen] at hne ⊢
      exact hloop here hne
    | true =>
      by_cases h0 : (valOf a.entries k).getD 0 = 0
      · rw [reach, if_pos ⟨rfl, h0⟩, hlen] at hne ⊢
        exact touches_searchKey hmem here rfl (by change _ ≤ place a.entries k; omega) (by omega)
      · rw [reach, if_neg fun h => h0 h.2, hlen] at hne ⊢
        have hg := goes_searched hmem here rfl
        rw [Call.key, searched, if_neg h0] at hg
        exact hloop hg hne

end goes

/-! ### Every list of one thread -/

/-- The loop that a call is in. -/
def copying : Pc T K V → Option (Copying T V)
  | .size x | .key x | .removed x | .loadKey x | .setKey x _ | .loadVal x | .setVal x _
  | .lastKey x | .lastVal x | .publish x _ => some x
  | _ => none

/-- The arrays that a call holds on to exist. -/
def Held (s : CopyOnWrite T K V Λ) (l : Pc T K V) : Prop :=
  ∀ x, copying l = some x → s.memory.Allocated x.allNew

theorem step_held (hstep : step A garbage t s op l = some (s', l')) (ha : s.memory.Allocated s.array)
    (h : Held s l) : s'.memory.Allocated s'.array ∧ Held s' l' := by
  have hsearched : ∀ v, Held s (searched op v : Pc T K V) := by
    intro v x hx
    cases op with
    | search k => cases hx
    | _ => by_cases hv : v = 0 <;> simp [searched, hv, copying] at hx
  cases l with
  | searchList =>
    cases hstep
    exact ⟨ha, fun _ h => by cases h⟩
  | searchSize y i =>
    cases hstep
    refine ⟨ha, ?_⟩
    split
    · exact fun _ h => by cases h
    · exact hsearched 0
  | searchKey y i =>
    cases hstep
    refine ⟨ha, ?_⟩
    split <;> exact fun _ h => by cases h
  | searchVal y i =>
    cases hstep
    exact ⟨ha, hsearched _⟩
  | lock =>
    obtain ⟨word, hw, he⟩ := Option.map_eq_some_iff.mp hstep
    cases he
    exact ⟨ha, fun _ h => by cases h⟩
  | alloc y size =>
    have hmono := step_allocated hstep ha
    cases hstep
    refine ⟨hmono, fun x hx => ?_⟩
    cases hx
    exact Or.inr (Or.inr ⟨t, _, rfl, s.memory.count_allocate_self _ t⟩)
  | size x =>
    cases hstep
    refine ⟨ha, fun y hy => ?_⟩
    have hy : copying (if x.i < (s.memory.mem x.allOld).size then .key x else copied x op) = some y := hy
    split at hy
    · cases hy
      exact h x rfl
    · cases op with
      | insert k v =>
        cases hy
        exact h x rfl
      | _ =>
        by_cases hx : x.removed = 0
        · simp [copied, hx, copying] at hy
        · simp only [copied, ne_eq, hx, not_false_eq_true, if_true, copying, Option.some.injEq] at hy
          exact hy ▸ h x rfl
  | key x =>
    cases hstep
    refine ⟨ha, fun y hy => ?_⟩
    have hy : copying (if ((s.memory.mem x.allOld).nodes x.i).key = op.key then matched x op
      else .loadKey x) = some y := hy
    split at hy
    · cases op with
      | insert k v => cases hy
      | _ =>
        cases hy
        exact h x rfl
    · cases hy
      exact h x rfl
  | publish x r =>
    cases hstep
    exact ⟨h x rfl, fun _ h => by cases h⟩
  | removed x =>
    cases hstep
    refine ⟨ha, fun y hy => ?_⟩
    cases hy
    exact h x rfl
  | setVal x v =>
    cases hstep
    refine ⟨ha, fun y hy => ?_⟩
    cases hy
    exact h x rfl
  | _ =>
    cases hstep
    exact ⟨ha, h⟩

theorem held {es c} (hr : (listOf A lock nodes roFail pre).Run es c) :
    c.shared.memory.Allocated c.shared.array ∧
      ∀ t op l, c.threads t = some (op, l) → Held c.shared l := by
  induction hr with
  | init => exact ⟨Or.inl rfl, nofun⟩
  | @step es c e c' hr hst _ ih =>
    cases hst with
    | @call t op hidle hpre =>
      refine ⟨ih.1, fun u op₁ l₁ hu => ?_⟩
      rcases update_eq_some.mp hu with ⟨rfl, h⟩ | ⟨-, h⟩
      · cases h
        cases op <;> cases roFail <;> exact nofun
      · exact ih.2 u op₁ l₁ h
    | @ret t op l r ht hres =>
      refine ⟨ih.1, fun u op₁ l₁ hu => ?_⟩
      rcases update_eq_some.mp hu with ⟨rfl, h⟩ | ⟨-, h⟩
      · cases h
      · exact ih.2 u op₁ l₁ h
    | @tau t op l s' l' i ht hres hstep =>
      obtain ⟨h1, h2⟩ := step_held hstep ih.1 (ih.2 t op l ht)
      refine ⟨h1, fun u op₁ l₁ hu => ?_⟩
      rcases update_eq_some.mp hu with ⟨rfl, h⟩ | ⟨-, h⟩
      · cases h
        exact h2
      · exact fun x hx => step_allocated hstep (ih.2 u op₁ l₁ h x hx)

/-- Every slot in use that a call touches, running alone from `s`, lies in its block. -/
def SlotsInBlock (P : Program T (Call K V) (Answer V) (CopyOnWrite T K V Λ) (Pc T K V)
    (ℕ → NodeLl K V)) (fixedSize sizeofNode : ℕ) (t : T) (s : CopyOnWrite T K V Λ) (op : Call K V) :
    Prop :=
  ∀ s' l y i, P.Goes t op (s, P.start op) (s', l) → slot l = some (y, i) →
    i < (s'.memory.mem y).size → InBlock fixedSize sizeofNode i

/-- In every list that a single thread can come to, the slots that an `insert` or
a `remove` touches lie in their blocks exactly if they are few enough. -/
def BlocksFit (A : LockOps Unit Λ) (lock : Λ) (nodes : ℕ → NodeLl K V) (roFail : Bool)
    (fixedSize sizeofNode : ℕ) : Prop :=
  ∀ es c, (listOf A lock nodes roFail fun _ => True).Run es c → c.threads () = none →
    ∀ op, Writes op →
      (SlotsInBlock (listOf A lock nodes roFail fun _ => True) fixedSize sizeofNode () c.shared op ↔
        Fits fixedSize sizeofNode (reach roFail op (content c.shared)))

theorem slots_in_block_of_fits (hall : s.memory.Allocated s.array) {fixedSize sizeofNode : ℕ}
    (h : Fits fixedSize sizeofNode (reach roFail op (content s))) :
    SlotsInBlock (listOf A lock nodes roFail pre) fixedSize sizeofNode t s op := by
  intro s' l y i hg hl _
  exact h.slot (((Near.start roFail rfl hall op).goes hg).lt_reach hl)

theorem fits_of_slots_in_block (hall : s.memory.Allocated s.array)
    (hlock : (A.lock t s.lock).isSome) (hw : Writes op) {fixedSize sizeofNode : ℕ}
    (h : SlotsInBlock (listOf A lock nodes roFail pre) fixedSize sizeofNode t s op) :
    Fits fixedSize sizeofNode (reach roFail op (content s)) := by
  by_cases h0 : reach roFail op (content s) = 0
  · exact Or.inl h0
  · have ht : Touches (listOf A lock nodes roFail pre) t op (s, start roFail op)
        (reach roFail op (content s) - 1) := touches_last rfl hall hlock hw h0
    obtain ⟨s', l, y, hg, hl, hi⟩ := ht
    have hf : Fits fixedSize sizeofNode (reach roFail op (content s) - 1 + 1) :=
      (h s' l y _ hg hl hi).fits
    rwa [Nat.sub_add_cancel (Nat.pos_of_ne_zero h0)] at hf

/-- **The slots that a call touches lie in their blocks exactly if the block has
room for as many nodes more as `sizeof(ll_array)` has bytes.** -/
theorem slots_in_block (A : LockOps Unit Λ) (Free Taken : Λ → Prop) (hA : A.Lawful Free Taken)
    (lock : Λ) (h0 : Free lock) (nodes : ℕ → NodeLl K V) (roFail : Bool)
    (fixedSize sizeofNode : ℕ) : BlocksFit A lock nodes roFail fixedSize sizeofNode := by
  intro es c hr hidle op hw
  have hfree : Free c.shared.lock :=
    (lockUse A lock nodes roFail fun _ => True).free_of_none hA h0 hr fun u ⟨op, l, hu, _⟩ => by
      rw [hidle] at hu
      cases hu
  obtain ⟨w, hlock, -⟩ := hA.lock (t := ()) hfree
  exact ⟨fits_of_slots_in_block (held hr).1 (by rw [hlock]; rfl) hw,
    slots_in_block_of_fits (held hr).1⟩

/-- Blocks for 1024 nodes of an `int` and a pointer. -/
theorem slots_in_block_tas :
    BlocksFit (tasOps Unit) TAS_FREE (fun _ => (⟨0, 0⟩ : NodeLl ℤ ℕ)) true 1024 16 :=
  slots_in_block (tasOps Unit) _ _ tasOps_lawful TAS_FREE rfl _ true 1024 16

/-- The first `insert` into a list of at most one key already writes behind its block. -/
theorem slot_behind_block : ¬ ∀ n es c,
    (listOf (tasOps Unit) TAS_FREE (fun _ => (⟨0, 0⟩ : NodeLl ℤ ℕ)) true
      fun op => 1 ≤ op.key ∧ op.key ≤ n).Run es c → c.threads () = none →
    ∀ op, Writes op → 1 ≤ op.key ∧ op.key ≤ n →
      SlotsInBlock (listOf (tasOps Unit) TAS_FREE (fun _ => (⟨0, 0⟩ : NodeLl ℤ ℕ)) true
        fun op => 1 ≤ op.key ∧ op.key ≤ n) n.toNat 16 () c.shared op := by
  intro h
  have hs := h 1 [] _ .init rfl (.insert 1 1) nofun ⟨le_rfl, le_rfl⟩
  have hf : Fits 1 16 1 := fits_of_slots_in_block (Or.inl rfl) rfl nofun hs
  simp [Fits, blockBytes, sizeofLlArray] at hf

end LinkedListCopy

end Ascylib
