/-
# The new segment

`chm_segment_rehash` fills a segment that nobody else knows. While it works on
bucket `b` of the old segment, the buckets of the new one have what they get from
the buckets before `b` and from the nodes `l` of bucket `b` that were done
(`expect`). A list of the new segment ends in nodes of the old one, which are
linked and which the holder of the lock alone could change, and begins with
copies of its own (`Mine`).

Key definitions: `Same`, `expect`, `Copied`.
Key theorems: `Copied.store`, `Copied.segWf`.
-/
import Ascylib.ChmHeap
import Mathlib.Data.List.Perm.Basic

set_option linter.unusedSectionVars false

namespace Ascylib

open Concur

namespace HashtableJava

variable {T K V Λ : Type*} [DecidableEq T] [DecidableEq K] [Zero V] {C : ChmConfig K}
  {s s' : Chm T K V Λ} {S : Set (Chm T K V Λ)} {g : SegPtr T} {x y n q : Ptr T} {m i : ℕ} {k : K}
  {v : V} {t u : T}

/-! ### What the holder of a lock relies on -/

section same

variable (C)

/-- A node that the holder of the `m`-th lock alone may change. -/
def Mine (S : Set (Chm T K V Λ)) (t : T) (s : Chm T K V Λ) (m : ℕ) (x : Ptr T) : Prop :=
  LinkedAt s m x ∨ OwnNode C S t x ∧ s.memory.Allocated x

/-- What thread `t` may rely on while it has the `m`-th lock is as it was. -/
structure Same (S : Set (Chm T K V Λ)) (t : T) (m : ℕ) (s s' : Chm T K V Λ) : Prop where
  segments : s'.segments m = s.segments m
  shape : s'.shape (s.segments m) = s.shape (s.segments m)
  node : ∀ x, Mine C S t s m x → s'.memory.mem x = s.memory.mem x
  own : ∀ x, OwnNode C S t x → OwnNode C (insert s' S) t x
  ownSeg : ∀ g, OwnSeg C S t g → OwnSeg C (insert s' S) t g
  count : ∀ u, s.memory.count u ≤ s'.memory.count u

variable {C}

/-- A step of another thread, which has not got the lock. -/
theorem Local.same {j : ℕ} (hl : Local C S t j s s') (h : HeapOk C S s) (hut : u ≠ t)
    (hm : m < C.numSegments) (hj : j < C.numSegments) (hmj : s.segments m ≠ s.segments j) :
    Same C S u m s s' where
  segments := hl.segments m fun he => hmj (he ▸ rfl)
  shape := hl.shape _ (not_ownSeg_of_known ⟨s, h.mem, m, hm, rfl⟩) hmj
  node := by
    rintro x (hx | ⟨hx, -⟩)
    · refine hl.node x (not_own_of_met (h.met ⟨m, hm, hx⟩)) ?_
      rintro ⟨i, hi, hxi⟩
      obtain ⟨i', hi', hxi'⟩ := hx
      have h1 := ((h.wf s h.mem j hj).place i hi x hxi).1
      have h2 := ((h.wf s h.mem m hm).place i' hi' x hxi').1
      exact hmj (by rw [← h2, h1])
    · exact hl.node x (hx.ne hut.symm) fun hxj => hx.2 (h.met ⟨j, hj, hxj⟩)
  own x hx := hx.step h hl hut
  ownSeg g hg := hg.step h.mem hl hut
  count := hl.count

theorem Local.shape_own {j : ℕ} (hl : Local C S t j s s') (h : HeapOk C S s) (hut : u ≠ t)
    (hj : j < C.numSegments) (hg : OwnSeg C S u g) : s'.shape g = s.shape g :=
  hl.shape g (hg.ne hut.symm) fun he => hg.2 ⟨s, h.mem, j, hj, he.symm⟩

/-- A step of the thread itself that changes nothing it relies on. -/
theorem Private.same (hp : Private C S t s s') (h : HeapOk C S s) (hm : m < C.numSegments)
    (hnode : ∀ x, OwnNode C S t x → s.memory.Allocated x → s'.memory.mem x = s.memory.mem x) :
    Same C S t m s s' where
  segments := by rw [hp.segments]
  shape := hp.shape _ (not_ownSeg_of_known ⟨s, h.mem, m, hm, rfl⟩)
  node := by
    rintro x (hx | ⟨h1, h2⟩)
    · exact hp.node x (not_own_of_met (h.met ⟨m, hm, hx⟩))
    · exact hnode x h1 h2
  own _ hx := hp.own h hx
  ownSeg _ hg := hp.ownSeg h.mem hg
  count := hp.count

/-- Nor what any other thread relies on. -/
theorem Private.other (hp : Private C S t s s') (h : HeapOk C S s) (hut : u ≠ t) (hm : m < C.numSegments) :
    Same C S u m s s' where
  segments := by rw [hp.segments]
  shape := hp.shape _ (not_ownSeg_of_known ⟨s, h.mem, m, hm, rfl⟩)
  node := by
    rintro x (hx | ⟨hx, -⟩)
    · exact hp.node x (not_own_of_met (h.met ⟨m, hm, hx⟩))
    · exact hp.node x (hx.ne hut.symm)
  own _ hx := hp.own h hx
  ownSeg _ hg := hp.ownSeg h.mem hg
  count := hp.count

namespace Same

variable (hs : Same C S t m s s') (hw : SegWf C s m (s.segments m))

include hs hw

theorem chain_eq (hi : i < s.buckets (s.segments m)) :
    s'.chain (s.segments m) i = s.chain (s.segments m) i :=
  hw.chain_congr hs.shape (fun j hj x hx => hs.node x (Or.inl ⟨j, hj, hx⟩)) hi

omit hw in
theorem buckets_eq : s'.buckets (s.segments m) = s.buckets (s.segments m) :=
  congrArg Prod.fst hs.shape

theorem linkedAt_iff : LinkedAt s' m x ↔ LinkedAt s m x := by
  unfold LinkedAt
  rw [hs.segments, hs.buckets_eq]
  refine exists_congr fun i => and_congr_right fun hi => ?_
  rw [hs.chain_eq hw hi]

theorem mine (hx : Mine C S t s m x) : Mine C (insert s' S) t s' m x :=
  hx.imp (hs.linkedAt_iff hw).mpr fun h => ⟨hs.own x h.1, h.2.mono hs.count⟩

omit hw in
theorem key_eq (hx : Mine C S t s m x) : s'.key x = s.key x := congrArg ChmNode.key (hs.node x hx)

omit hw in
theorem val_eq (hx : Mine C S t s m x) : s'.val x = s.val x := congrArg ChmNode.val (hs.node x hx)

omit hw in
theorem next_eq (hx : Mine C S t s m x) : s'.next x = s.next x := congrArg ChmNode.next (hs.node x hx)

end Same

end same

/-! ### What the buckets of the new segment get -/

section copied

/-- What a node holds. -/
def entry (s : Chm T K V Λ) (x : Ptr T) : K × V := (s.key x, s.val x)

variable (C)

/-- What bucket `i` of `n` buckets gets from the nodes `l`. -/
def share (s : Chm T K V Λ) (n i : ℕ) (l : List (Ptr T)) : List (K × V) :=
  (l.map (entry s)).filter fun e => C.bucket n e.1 = i

/-- What bucket `i` of the new segment has, after all buckets of `old` before
`b` and the nodes `l` of bucket `b`. -/
noncomputable def expect (s : Chm T K V Λ) (old : SegPtr T) (b : ℕ) (l : List (Ptr T)) (i : ℕ) :
    List (K × V) :=
  if i % s.buckets old < b then share C s (2 * s.buckets old) i (s.chain old (i % s.buckets old))
  else if i % s.buckets old = b then share C s (2 * s.buckets old) i l
  else []

/-- The new segment, with `f i` in bucket `i`. -/
structure Copied (S : Set (Chm T K V Λ)) (t : T) (s : Chm T K V Λ) (m : ℕ) (g : SegPtr T)
    (f : ℕ → List (K × V)) : Prop where
  buckets : s.buckets g = 2 * s.buckets (s.segments m)
  own : OwnSeg C S t g
  path : ∀ i < s.buckets g, Path s.next .null (s.table g i) (s.chain g i)
  content : ∀ i < s.buckets g, ((s.chain g i).map (entry s)).Perm (f i)
  mine : ∀ i < s.buckets g, ∀ x ∈ s.chain g i, Mine C S t s m x

variable {C} {old : SegPtr T} {b : ℕ} {l l' : List (Ptr T)} {f f' : ℕ → List (K × V)}

theorem expect_of_lt (h : i % s.buckets old < b) :
    expect C s old b l i = share C s (2 * s.buckets old) i (s.chain old (i % s.buckets old)) := if_pos h

theorem expect_of_eq (h : i % s.buckets old = b) :
    expect C s old b l i = share C s (2 * s.buckets old) i l := by
  rw [expect, if_neg (by omega), if_pos h]

theorem expect_of_gt (h : b < i % s.buckets old) : expect C s old b l i = [] := by
  rw [expect, if_neg (by omega), if_neg (by omega)]

theorem share_append {n : ℕ} : share C s n i (l ++ l') = share C s n i l ++ share C s n i l' := by
  simp only [share, List.map_append, List.filter_append]

theorem share_all {n : ℕ} (h : ∀ x ∈ l, C.bucket n (s.key x) = i) : share C s n i l = l.map (entry s) := by
  rw [share, List.filter_eq_self]
  intro e he
  obtain ⟨x, hx, rfl⟩ := List.mem_map.mp he
  exact decide_eq_true (h x hx)

theorem share_none {n : ℕ} (h : ∀ x ∈ l, C.bucket n (s.key x) ≠ i) : share C s n i l = [] := by
  rw [share, List.filter_eq_nil_iff]
  intro e he
  obtain ⟨x, hx, rfl⟩ := List.mem_map.mp he
  exact fun hd => h x hx (of_decide_eq_true hd)

/-- A bucket is done. -/
theorem expect_next (s : Chm T K V Λ) (old : SegPtr T) (b : ℕ) :
    expect C s old b (s.chain old b) = expect C s old (b + 1) [] := by
  funext i
  rcases lt_trichotomy (i % s.buckets old) b with h | h | h
  · rw [expect_of_lt h, expect_of_lt (by omega)]
  · rw [expect_of_eq h, expect_of_lt (by omega), h]
  · rw [expect_of_gt h]
    by_cases h1 : i % s.buckets old = b + 1
    · rw [expect_of_eq h1]
      rfl
    · rw [expect_of_gt (by omega)]

theorem map_entry_congr (h : ∀ x ∈ l, s'.memory.mem x = s.memory.mem x) :
    l.map (entry s') = l.map (entry s) :=
  List.map_congr_left fun x hx => congrArg (fun n => (n.key, n.val)) (h x hx)

/-- The old segment and the nodes that were done are as before. -/
theorem Same.expect_eq (hs : Same C S t m s s') (hw : SegWf C s m (s.segments m))
    (hb : b < s.buckets (s.segments m) ∨ l = []) (hl : ∀ x ∈ l, x ∈ s.chain (s.segments m) b) :
    expect C s' (s.segments m) b l = expect C s (s.segments m) b l := by
  have hnode : ∀ {j}, j < s.buckets (s.segments m) → ∀ x ∈ s.chain (s.segments m) j,
      s'.memory.mem x = s.memory.mem x := fun hj x hx => hs.node x (Or.inl ⟨_, hj, hx⟩)
  have hpos : 0 < s.buckets (s.segments m) := by
    obtain ⟨j, hj⟩ := hw.pow
    rw [hj]
    exact Nat.two_pow_pos j
  have hb' := hs.buckets_eq
  have hlsame : l.map (entry s') = l.map (entry s) := by
    rcases hb with hb | rfl
    · exact map_entry_congr fun x hx => hnode hb x (hl x hx)
    · rfl
  funext i
  have hi := Nat.mod_lt i hpos
  simp only [expect, share, hb', hs.chain_eq hw hi, hlsame, map_entry_congr (hnode hi)]

namespace Copied

variable (h : Copied C S t s m g f)

include h

/-- The new segment is read the same in a heap that agrees on it. -/
theorem congr (hs : s'.segments m = s.segments m) (hb : s'.buckets (s.segments m) = s.buckets (s.segments m))
    (hg : s'.shape g = s.shape g)
    (hnode : ∀ i < s.buckets g, ∀ x ∈ s.chain g i, s'.memory.mem x = s.memory.mem x)
    (hown : OwnSeg C (insert s' S) t g)
    (hmine : ∀ x, Mine C S t s m x → Mine C (insert s' S) t s' m x) :
    Copied C (insert s' S) t s' m g f := by
  have hbg : s'.buckets g = s.buckets g := congrArg Prod.fst hg
  have ht : s'.table g = s.table g := congrArg Prod.snd hg
  have hpath : ∀ i < s.buckets g, Path s'.next .null (s'.table g i) (s.chain g i) := by
    intro i hi
    rw [ht]
    exact (h.path i hi).congr fun x hx => congrArg ChmNode.next (hnode i hi x hx)
  have hc : ∀ i < s.buckets g, s'.chain g i = s.chain g i := fun i hi => (hpath i hi).nodes_eq
  refine ⟨by rw [hbg, hs, hb, h.buckets], hown, fun i hi => ?_, fun i hi => ?_, fun i hi x hx => ?_⟩
  all_goals rw [hbg] at hi
  · rw [hc i hi]
    exact hpath i hi
  · rw [hc i hi, map_entry_congr (hnode i hi)]
    exact h.content i hi
  · rw [hc i hi] at hx
    exact hmine x (h.mine i hi x hx)

theorem same (hs : Same C S t m s s') (hw : SegWf C s m (s.segments m)) (hg : s'.shape g = s.shape g) :
    Copied C (insert s' S) t s' m g f :=
  h.congr hs.segments hs.buckets_eq hg (fun i hi x hx => hs.node x (h.mine i hi x hx))
    (hs.ownSeg g h.own) fun _ => hs.mine hw

/-- A store to the table of the new segment. -/
theorem store {j : ℕ} (hj : j < s.buckets g) (hq : Path s.next .null q l)
    (hl : (l.map (entry s)).Perm (f' j)) (hf : ∀ i < s.buckets g, i ≠ j → (f i).Perm (f' i))
    (hm : ∀ x ∈ l, Mine C S t s m x)
    (hs : Same C S t m s (s.setTable g j q)) (hw : SegWf C s m (s.segments m)) :
    Copied C (insert (s.setTable g j q) S) t (s.setTable g j q) m g f' := by
  have hbg : (s.setTable g j q).buckets g = s.buckets g := by
    rw [Chm.buckets, shape_setTable_self]
  have ht : ∀ i, (s.setTable g j q).table g i = if i = j then q else s.table g i := by
    intro i
    rw [Chm.table, shape_setTable_self]
    exact Function.update_apply ..
  have hpath : ∀ i < s.buckets g, Path (s.setTable g j q).next .null ((s.setTable g j q).table g i)
      (if i = j then l else s.chain g i) := by
    intro i hi
    rw [ht]
    by_cases hij : i = j
    · rw [if_pos hij, if_pos hij]
      exact hq
    · rw [if_neg hij, if_neg hij]
      exact h.path i hi
  have hc : ∀ i < s.buckets g, (s.setTable g j q).chain g i = if i = j then l else s.chain g i :=
    fun i hi => (hpath i hi).nodes_eq
  refine ⟨?_, hs.ownSeg g h.own, fun i hi => ?_, fun i hi => ?_, fun i hi x hx => ?_⟩
  · rw [hbg, h.buckets, hs.segments, hs.buckets_eq]
  all_goals rw [hbg] at hi
  · rw [hc i hi]
    exact hpath i hi
  · rw [hc i hi]
    by_cases hij : i = j
    · subst hij
      rw [if_pos rfl]
      exact hl
    · rw [if_neg hij]
      exact (h.content i hi).trans (hf i hi hij)
  · rw [hc i hi] at hx
    by_cases hij : i = j
    · rw [if_pos hij] at hx
      exact hs.mine hw (hm x hx)
    · rw [if_neg hij] at hx
      exact hs.mine hw (h.mine i hi x hx)

end Copied

/-! ### The finished segment -/

section finished

theorem bucket_double {n : ℕ} (hp : ∃ j, n = 2 ^ j) (k : K) : C.bucket (2 * n) k % n = C.bucket n k := by
  obtain ⟨j, rfl⟩ := hp
  rw [← Nat.pow_succ', ChmConfig.bucket_eq, ChmConfig.bucket_eq]
  exact Nat.mod_mod_of_dvd _ (Nat.pow_dvd_pow 2 (Nat.le_succ j))

theorem mem_share {e : K × V} {n : ℕ} : e ∈ share C s n i l ↔ (∃ x ∈ l, entry s x = e) ∧ C.bucket n e.1 = i := by
  rw [share, List.mem_filter, List.mem_map, decide_eq_true_iff]

/-- What bucket `i` of the new segment has from the old one in the end. -/
noncomputable abbrev full (C : ChmConfig K) (s : Chm T K V Λ) (old : SegPtr T) : ℕ → List (K × V) :=
  expect C s old (s.buckets old) []

/-- And with the new key. -/
noncomputable def added (C : ChmConfig K) (s : Chm T K V Λ) (old : SegPtr T) (k : K) (v : V) (i : ℕ) :
    List (K × V) :=
  if i = C.bucket (2 * s.buckets old) k then (k, v) :: full C s old i else full C s old i

variable (hw : SegWf C s m (s.segments m))

include hw

theorem mem_full {e : K × V} : e ∈ full C s (s.segments m) i ↔
    (∃ x, LinkedAt s m x ∧ entry s x = e) ∧ C.bucket (2 * s.buckets (s.segments m)) e.1 = i := by
  have hi : i % s.buckets (s.segments m) < s.buckets (s.segments m) :=
    Nat.mod_lt _ (Nat.zero_lt_of_lt (hw.bucket_lt e.1))
  rw [full, expect_of_lt hi, mem_share]
  refine and_congr_left fun he => exists_congr fun x => and_congr_left fun hx => ?_
  refine ⟨fun h => ⟨_, hi, h⟩, ?_⟩
  rintro ⟨j, hj, h⟩
  subst hx
  have hj' := (hw.place j hj x h).2
  rw [← he, bucket_double hw.pow]
  rwa [show C.bucket _ (entry s x).1 = j from hj']

/-- The keys that a bucket gets are different. -/
theorem full_keys (hi : i < 2 * s.buckets (s.segments m)) :
    ((full C s (s.segments m) i).map Prod.fst).Nodup := by
  have hmod : i % s.buckets (s.segments m) < s.buckets (s.segments m) := Nat.mod_lt _ (by omega)
  rw [full, expect_of_lt hmod, share]
  refine List.Nodup.sublist (List.Sublist.map _ List.filter_sublist) ?_
  rw [List.map_map]
  exact hw.keys _ hmod

variable (hk : C.segNum k = m)
  (hnew : ∀ x ∈ s.chain (s.segments m) (C.bucket (s.buckets (s.segments m)) k), s.key x ≠ k)

include hk hnew

omit hk in
theorem not_mem_full {e : K × V} (he : e ∈ full C s (s.segments m) i) : e.1 ≠ k := by
  rintro rfl
  obtain ⟨⟨x, ⟨j, hj, hx⟩, rfl⟩, -⟩ := (mem_full hw).mp he
  refine hnew x ?_ rfl
  have h := (hw.place j hj x hx).2
  rwa [show C.bucket _ (entry s x).1 = j from h]

namespace Copied

variable (h : Copied C S t s m g (added C s (s.segments m) k v))

include h

/-- **The finished segment is well-formed.** -/
theorem segWf : SegWf C s m g := by
  have hmem : ∀ i < s.buckets g, ∀ x ∈ s.chain g i,
      entry s x = (k, v) ∧ i = C.bucket (s.buckets g) k ∨ entry s x ∈ full C s (s.segments m) i := by
    intro i hi x hx
    have he := (h.content i hi).mem_iff.mp (List.mem_map_of_mem hx)
    rw [added, ← h.buckets] at he
    split_ifs at he with hik
    · exact (List.mem_cons.mp he).imp_left fun h1 => ⟨h1, hik⟩
    · exact Or.inr he
  refine ⟨?_, h.path, fun i hi x hx => ?_, fun i hi => ?_⟩
  · obtain ⟨j, hj⟩ := hw.pow
    exact ⟨j + 1, by rw [h.buckets, hj, Nat.pow_succ']⟩
  · rcases hmem i hi x hx with ⟨he, rfl⟩ | he
    · have hx : s.key x = k := congrArg Prod.fst he
      rw [hx]
      exact ⟨hk, rfl⟩
    · obtain ⟨⟨y, ⟨j, hj, hy⟩, hye⟩, hb⟩ := (mem_full hw).mp he
      refine ⟨?_, by rw [h.buckets]; exact hb⟩
      rw [show s.key x = s.key y from (congrArg Prod.fst hye).symm]
      exact (hw.place j hj y hy).1
  · have hkeys : (s.chain g i).map s.key = ((s.chain g i).map (entry s)).map Prod.fst := by
      rw [List.map_map]
      rfl
    rw [hkeys, ((h.content i hi).map Prod.fst).nodup_iff, added]
    have hf := full_keys hw (i := i) (by rw [← h.buckets]; exact hi)
    split_ifs with hik
    · rw [List.map_cons, List.nodup_cons]
      refine ⟨fun hk' => ?_, hf⟩
      obtain ⟨e, he, hek⟩ := List.mem_map.mp hk'
      exact not_mem_full hw hnew he hek
    · exact hf

/-- It has what the old one has, and the new key. -/
theorem entries (k' : K) (v' : V) :
    (∃ i < s.buckets g, ∃ x ∈ s.chain g i, s.key x = k' ∧ s.val x = v') ↔
      (k' = k ∧ v' = v) ∨ ∃ x, LinkedAt s m x ∧ s.key x = k' ∧ s.val x = v' := by
  have hentry : ∀ {x}, s.key x = k' ∧ s.val x = v' ↔ entry s x = (k', v') := by
    intro x
    simp [entry]
  have hlt : ∀ k'', C.bucket (s.buckets g) k'' < s.buckets g := (h.segWf hw hk hnew).bucket_lt
  have hiff : ∀ i < s.buckets g, (∃ x ∈ s.chain g i, entry s x = (k', v')) ↔
      (k', v') ∈ added C s (s.segments m) k v i := by
    intro i hi
    rw [← (h.content i hi).mem_iff, List.mem_map]
  simp only [hentry]
  constructor
  · rintro ⟨i, hi, hx⟩
    have he := (hiff i hi).mp hx
    rw [added] at he
    split_ifs at he with hik
    · rcases List.mem_cons.mp he with he | he
      · exact Or.inl (Prod.mk.inj he)
      · exact Or.inr ((mem_full hw).mp he).1
    · exact Or.inr ((mem_full hw).mp he).1
  · rintro (⟨rfl, rfl⟩ | hx)
    · refine ⟨_, hlt k', (hiff _ (hlt k')).mpr ?_⟩
      rw [added, if_pos (by rw [h.buckets])]
      exact List.mem_cons_self
    · refine ⟨_, hlt k', (hiff _ (hlt k')).mpr ?_⟩
      have he : (k', v') ∈ full C s (s.segments m) (C.bucket (s.buckets g) k') :=
        (mem_full hw).mpr ⟨hx, by rw [h.buckets]⟩
      rw [added]
      split_ifs
      · exact List.mem_cons_of_mem _ he
      · exact he

end Copied

end finished

end copied

end HashtableJava

end Ascylib
