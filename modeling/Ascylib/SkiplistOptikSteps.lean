/-
# The steps of the skip list with OPTIK locks

Each step is one of the writes that a thread may do while it holds its locks,
leads to the next assertion, and changes the map only where the call takes effect
(`StepOk`): an insert where it sets the state of its node, a remove where its CAS
deletes the node.

What carries the proof is that a lock is taken with the version that the search
read before the pointer (`Locking.take`): one word covers all the levels that
share the predecessor, and an insert that finds the key at none of them links its
node in front of a larger key (`Locking.fresh`).

Key definition: `StepOk`.
Key theorems: `step_ok_find`, `step_ok_lock`, `step_ok_insert`, `step_ok_unlink`.
-/
import Ascylib.SkiplistOptik

set_option linter.unusedSectionVars false

namespace Ascylib

open Concur Chain LockedSkipHeap

namespace SkiplistOptik

variable {T K V : Type*} [DecidableEq T] [LinearOrder K] [BoundedOrder K] [Zero V] {t u : T}
  {S W : Set (LockedSkipHeap T K V)} {s s' : LockedSkipHeap T K V} {op : Call K V} {k : K}
  {levelmax : ℕ} {a : Preds T} {q : Caller T} {z : Locker T} {found : Option (Ptr T × OptikT)}
  {i j m : ℕ} {n x pred curr : Ptr T} {predv : OptikT} {b shown : Prop} {H X : Set (Ptr T)}

/-! ### The steps -/

def Caller.lin (s : LockedSkipHeap T K V) : Caller T → Option (Answer V)
  | .removing n => some (.val (s.val n))
  | _ => none

def Locker.lin (s : LockedSkipHeap T K V) : Locker T → Option (Answer V)
  | .remove n _ => some (.val (s.val n))
  | _ => none

def After.lin (s : LockedSkipHeap T K V) : After T → Option (Answer V)
  | .restart q => q.lin s
  | .inserted => some (.flag true)
  | .removed n => some (.val (s.val n))

/-- The result of a call that has taken effect. -/
def lin (s : LockedSkipHeap T K V) : Call K V → Pc T V → Option (Answer V)
  | _, .find q | _, .findTop q _ | _, .findNext q _ _ _ _ _ | _, .findLock q _ _ _ _ _ _ |
    _, .findKey q _ _ _ _ _ _ _ | _, .findEq q _ _ _ _ _ _ _ => q.lin s
  | _, .lock z _ _ _ | _, .lockCas z _ _ => z.lin s
  | _, .removeTop _ n | _, .removeNext _ n _ _ | _, .removeStore _ n _ _ _ | _, .removeFree n |
    _, .removeVal n => some (.val (s.val n))
  | _, .unlock _ _ _ _ z | _, .unlockStore _ _ _ z _ => z.lin s
  | _, .done r => some r
  | _, _ => none

/-- What a step does: it is one of the writes, it establishes the next assertion,
over the window `W'`, and it changes the map only where the call takes effect. -/
structure StepOk (levelmax : ℕ) (shown : Prop) (t : T) (S W' : Set (LockedSkipHeap T K V))
    (s : LockedSkipHeap T K V) (op : Call K V) (l : Pc T V) (s' : LockedSkipHeap T K V)
    (l' : Pc T V) : Prop where
  act : Act levelmax t S s (holds l) (victims l) (holds l') (victims l') s'
  next : At levelmax shown t (insert s' S) W' s' op l'
  point : (lin s' op l' = lin s op l ∧ absMap s' = absMap s) ∨ (lin s op l = none ∧ ∃ r,
    lin s' op l' = some r ∧ (mapObject K V).apply op (absMap s) = (absMap s', r))

theorem lin_congr {l : Pc T V} (h : ∀ x, s'.val x = s.val x) : lin s' op l = lin s op l := by
  have hq : ∀ q : Caller T, q.lin s' = q.lin s := by
    rintro (⟨top, upto, n⟩ | _ | n)
    · rfl
    · rfl
    · simp only [Caller.lin, h]
  have hz : ∀ z : Locker T, z.lin s' = z.lin s := by
    rintro (⟨top, upto, n⟩ | ⟨n, top⟩)
    · rfl
    · simp only [Locker.lin, h]
  have ha : ∀ z : After T, z.lin s' = z.lin s := by
    rintro (q | _ | n)
    · exact hq q
    · rfl
    · simp only [After.lin, h]
  cases l
  all_goals first
    | rfl
    | exact hq _
    | exact hz _
    | exact ha _
    | simp only [lin, h]

/-! ### The arrays -/

omit [LinearOrder K] [Zero V] [BoundedOrder K] in
theorem taken_self (a : Preds T) (i : ℕ) : a.taken i i = ∅ :=
  Set.eq_empty_of_forall_notMem fun _ ⟨_, h1, h2, _⟩ => absurd h1 (not_le.mpr h2)

omit [LinearOrder K] [Zero V] [BoundedOrder K] in
theorem taken_succ (a : Preds T) {low : ℕ} (h : low ≤ i) :
    a.taken low (i + 1) = insert (a.preds i) (a.taken low i) := by
  ext x
  constructor
  · rintro ⟨j, h1, h2, rfl⟩
    rcases Nat.lt_succ_iff_lt_or_eq.mp h2 with h2 | rfl
    · exact Or.inr ⟨j, h1, h2, rfl⟩
    · exact Or.inl rfl
  · rintro (rfl | ⟨j, h1, h2, rfl⟩)
    · exact ⟨i, h, i.lt_succ_self, rfl⟩
    · exact ⟨j, h1, Nat.lt_succ_of_lt h2, rfl⟩

omit [Zero V] in
theorem ne_null (w : Wf levelmax S s) {x : Ptr T} (hx : Pub 0 S x) : x ≠ .null := by
  rintro rfl
  rcases (w.listed 0).alloc _ hx with h | h | ⟨t, m, h, -⟩ <;> cases h

namespace Preds

omit [Zero V]

theorem Spot.mono {b' : Prop} (h : a.Spot S s k b i) (hb : b' → b) : a.Spot S s k b' i := by
  obtain ⟨h1, h2, q, h3, h4, h5, h6⟩ := h
  exact ⟨h1, h2, q, h3, h4, h5, fun hb' => h6 (hb hb')⟩

theorem At.mono {b' : Prop} (h : a.At levelmax S s k b i) (hb : b' → b) :
    a.At levelmax S s k b' i :=
  ⟨fun j hij hj => (h.spot j hij hj).mono hb, h.chain⟩

variable (h : a.At levelmax S s k b 0)

include h

theorem At.antitone (hij : i ≤ j) (hj : j < levelmax) :
    s.key (a.preds j) ≤ s.key (a.preds i) := by
  induction hij with
  | refl => exact le_rfl
  | @step m hm ih =>
    refine le_trans ?_ (ih (Nat.lt_of_succ_lt hj))
    rcases h.chain m m.zero_le hj with ⟨he, -⟩ | hlt
    · rw [he]
    · exact hlt.le

/-- One predecessor has one version. -/
theorem At.same_above (hij : i ≤ j) (hj : j < levelmax) (he : a.preds j = a.preds i) :
    a.predsv j = a.predsv i := by
  induction hij with
  | refl => rfl
  | @step m hm ih =>
    rcases h.chain m m.zero_le hj with ⟨h1, h2⟩ | hlt
    · exact h2.trans (ih (Nat.lt_of_succ_lt hj) (h1.symm.trans he))
    · have := h.antitone hm (Nat.lt_of_succ_lt hj)
      rw [he] at hlt
      exact absurd this (not_le.mpr hlt)

/-- A predecessor that differs from the one below it differs from all below it. -/
theorem At.not_taken {low : ℕ} (hj : m + 1 < levelmax) (hne : a.preds (m + 1) ≠ a.preds m) :
    a.preds (m + 1) ∉ a.taken low (m + 1) := by
  rintro ⟨j, -, hjm, he⟩
  have h1 := (h.chain m m.zero_le hj).resolve_left fun h => hne h.1
  have h2 := h.antitone (Nat.lt_succ_iff.mp hjm) (Nat.lt_of_succ_lt hj)
  rw [he] at h1
  exact absurd h2 (not_le.mpr h1)

theorem At.same (hi : i < levelmax) (hj : j < levelmax) (he : a.preds j = a.preds i) :
    a.predsv j = a.predsv i := by
  rcases le_total i j with hij | hij
  · exact h.same_above hij hj he
  · exact (h.same_above hij hi he.symm).symm

end Preds

/-! ### Where the loops lead -/

section control

variable (w : Wf levelmax S s)

include w

omit w in
theorem Locking.top_le (h : Locking levelmax t S s op z a i m) : z.top ≤ levelmax := by
  cases z with
  | insert => exact h.locker.2.2.2.1
  | remove => exact h.locker.2.2.1

omit [Zero V] in
theorem null_not_taken {low : ℕ} (h : a.At levelmax S s k b 0) (hi : i ≤ levelmax) :
    .null ∉ a.taken low i := by
  rintro ⟨j, -, hj, he⟩
  exact ne_null w (w.pub_zero (h.spot j j.zero_le (hj.trans_le hi)).pub) he.symm

/-- Level `i` is locked. -/
theorem at_locked (h : Locking levelmax t S s op z a i (i + 1)) (hi : i < z.top) :
    At levelmax shown t S W s op (locked z a i) ∧
      holds (locked z a i : Pc T V) = a.taken z.low (i + 1) ∧
      victims (locked z a i : Pc T V) = z.victims ∧ lin s op (locked z a i) = z.lin s := by
  cases z with
  | insert top upto n => exact ⟨⟨h, hi⟩, rfl, rfl, rfl⟩
  | remove n top =>
    obtain ⟨h1, h2, h3, h4⟩ := h.locker
    exact ⟨⟨⟨⟨h1, hi, h3, h4⟩, h.preds, h.held, fun hf => hf.elim⟩, Or.inr ⟨i.succ_pos, rfl⟩⟩,
      rfl, rfl, rfl⟩

/-- All levels are locked. -/
theorem at_allLocked (h : Locking levelmax t S s op z a i i) (hi : ¬ i < z.top) :
    At levelmax shown t S W s op (allLocked z a) ∧
      holds (allLocked z a : Pc T V) = a.taken z.low i ∧
      victims (allLocked z a : Pc T V) = z.victims ∧ lin s op (allLocked z a) = z.lin s := by
  cases z with
  | insert top upto n =>
    obtain rfl : i = top := le_antisymm h.locker.2.2.1 (not_lt.mp hi)
    exact ⟨h, rfl, rfl, rfl⟩
  | remove n top =>
    obtain ⟨h1, h2, h3, h4⟩ := h.locker
    obtain rfl : i = top := le_antisymm h2 (not_lt.mp hi)
    refine ⟨⟨h1, Nat.zero_le i, h3, h.preds.mono False.elim, h.held, h4⟩, rfl, ?_, rfl⟩
    exact if_pos h4.pos

/-- Level `i` could not be locked. -/
theorem at_failed (h : Locking levelmax t S s op z a i i) (hi : i < z.top) :
    At levelmax shown t S W s op (failed z a i) ∧
      holds (failed z a i : Pc T V) = a.taken z.low i ∧
      victims (failed z a i : Pc T V) = z.victims ∧ lin s op (failed z a i) = z.lin s := by
  have htop := hi.trans_le h.top_le
  have hagain : (z.again i).At levelmax t S s op := by
    cases z with
    | insert top upto n =>
      obtain ⟨-, -, -, h1, k, v, h2, h3⟩ := h.locker
      exact ⟨hi, h1, k, v, h2, Or.inr h3⟩
    | remove n top =>
      obtain ⟨h1, -, -, h2⟩ := h.locker
      refine ⟨h1, ?_⟩
      rw [h2.top]
      exact h2
  refine ⟨⟨h.preds.mono False.elim, htop.le, Or.inl rfl, hagain⟩, ?_, ?_, ?_⟩
  · exact Set.sdiff_singleton_eq_self (null_not_taken w h.preds htop.le)
  · cases z <;> rfl
  · cases z <;> rfl

/-- The locks are given back. -/
theorem at_unlocked {z : After T} (h : z.At levelmax t S s op) :
    At levelmax shown t S W s op (unlocked z) ∧ holds (unlocked z : Pc T V) = ∅ ∧
      victims (unlocked z : Pc T V) = z.victims ∧ lin s op (unlocked z) = z.lin s := by
  cases z with
  | restart q => exact ⟨h, rfl, rfl, rfl⟩
  | inserted => exact ⟨trivial, rfl, rfl, rfl⟩
  | removed n => exact ⟨h, rfl, rfl, rfl⟩

/-- `insert` goes on with a node that it has allocated, or allocates it. -/
theorem at_insertNew {top upto : ℕ} (hq : Caller.At levelmax t S s op (.insert top upto n))
    (h : a.At levelmax S s op.key (upto = 0) 0) :
    At levelmax shown t S W s op (insertNew top upto n a) ∧
      holds (insertNew top upto n a : Pc T V) = ∅ ∧
      victims (insertNew top upto n a : Pc T V) = ∅ ∧ lin s op (insertNew top upto n a) = none := by
  obtain ⟨h1, h2, k, v, h3, h4⟩ := hq
  unfold insertNew
  split_ifs with hn
  · have hu : upto = 0 := by
      refine h4.elim And.left fun h => ?_
      obtain ⟨c, hc, -⟩ := h.node
      exact absurd (hn.symm.trans hc) nofun
    subst hu
    exact ⟨⟨rfl, h1, h2, ⟨k, v, h3⟩, h.mono fun _ => rfl⟩, rfl, rfl, rfl⟩
  · have hnode := h4.resolve_left fun h => hn h.2
    refine ⟨⟨⟨⟨h1, le_rfl, h1.le, h2, k, v, h3, hnode⟩, h.mono id, ?_, fun _ h5 h6 => ?_⟩,
      Or.inl ⟨rfl, rfl⟩⟩, taken_self a upto, rfl, rfl⟩
    · intro j hj hm
      rw [show Locker.low (.insert top upto n) = upto from rfl, taken_self] at hm
      exact hm.elim
    · exact absurd h5 h6.ne'

/-- The search returns. -/
theorem at_findDone (hq : q.At levelmax t S s op)
    (h : a.At levelmax S s op.key (found = none) 0)
    (hf : ∀ c v, found = some (c, v) → Sight W s op.key c) (hn : found = none → NoneSeen W op.key)
    (hv : ∀ n, q = .removing n → ∃ v, found = some (n, v)) :
    At levelmax shown t S W s op (findDone q a found) ∧ holds (findDone q a found : Pc T V) = ∅ ∧
      victims (findDone q a found : Pc T V) = q.victims ∧
      lin s op (findDone q a found) = q.lin s := by
  match q, found, hq, h, hv with
  | .insert top 0 n, some (c, v), hq, h, _ => exact ⟨⟨hq, hf c v rfl⟩, rfl, rfl, rfl⟩
  | .insert top 0 n, none, hq, h, _ => exact at_insertNew w hq (h.mono fun _ => rfl)
  | .insert top (upto + 1) n, found, hq, h, _ =>
    cases found <;> exact at_insertNew w hq (h.mono nofun)
  | .remove, some (c, v), hq, h, _ => exact ⟨⟨hq, h.mono False.elim, hf c v rfl⟩, rfl, rfl, rfl⟩
  | .remove, none, hq, _, _ =>
    refine ⟨fun _ => ?_, rfl, rfl, rfl⟩
    obtain ⟨s₀, hs₀, h0⟩ := hn rfl
    obtain ⟨k, rfl⟩ := hq
    exact ⟨s₀, hs₀, apply_remove_none h0⟩
  | .removing n, none, _, _, hv =>
    obtain ⟨v, h⟩ := hv n rfl
    cases h
  | .removing n, some (c, v), hq, h, hv =>
    obtain ⟨v', he⟩ := hv n rfl
    cases he
    exact ⟨⟨hq.1, h.mono False.elim, hq.2⟩, rfl, rfl, rfl⟩

/-- The search goes down to the next level, or returns. -/
theorem at_findLevel (hq : q.At levelmax t S s op) (hl : q.Linked W)
    (h : a.At levelmax S s op.key (found = none) i)
    (hf : ∀ c v, found = some (c, v) → Sight W s op.key c)
    (hn : i = 0 → found = none → NoneSeen W op.key)
    (hv : i = 0 → ∀ n, q = .removing n → ∃ v, found = some (n, v))
    (hp : ∀ j, i = j + 1 → Stand levelmax W s op.key j pred ∧ Since s pred predv ∧
      (i < levelmax → a.preds i = pred ∧ a.predsv i = predv ∨ s.key (a.preds i) < s.key pred)) :
    At levelmax shown t S W s op (findLevel q pred predv i a found) ∧
      holds (findLevel q pred predv i a found : Pc T V) = ∅ ∧
      victims (findLevel q pred predv i a found : Pc T V) = q.victims ∧
      lin s op (findLevel q pred predv i a found) = q.lin s := by
  cases i with
  | zero => exact at_findDone w hq h hf (hn rfl) (hv rfl)
  | succ i =>
    obtain ⟨h1, h2, h3⟩ := hp i rfl
    exact ⟨⟨hq, hl, h1, h2, h, h3, hf⟩, rfl, rfl, rfl⟩

end control

section step

variable {l l' : Pc T V} (w : Wf levelmax S s) (hs : s ∈ W) (hW : W ⊆ S) (hh : Hind W s)
  (hb : ⊥ < op.key) (ht : op.key < ⊤)

include w

/-- A step that only reads. -/
theorem StepOk.read (hs : s ∈ W) (hH : holds l' = holds l) (hX : victims l' = victims l)
    (h : At levelmax shown t S W s op l') (hlin : lin s op l' = lin s op l) :
    StepOk levelmax shown t S (insert s W) s op l s l' := by
  refine ⟨?_, ?_, Or.inl ⟨hlin, rfl⟩⟩
  · rw [hH, hX]
    exact .skip
  · rw [Set.insert_eq_of_mem w.mem, Set.insert_eq_of_mem hs]
    exact h

theorem StepOk.goes (hs : s ∈ W) (h : At levelmax shown t S W s op l' ∧ holds l' = holds l ∧
    victims l' = victims l ∧ lin s op l' = lin s op l) :
    StepOk levelmax shown t S (insert s W) s op l s l' :=
  .read w hs h.2.1 h.2.2.1 h.1 h.2.2.2

theorem head_lt (hb : ⊥ < k) : s.key .head < k := lt_of_eq_of_lt (w.listed 0).head_key hb

theorem stand_head (hs : s ∈ W) (hb : ⊥ < k) (hi : i < levelmax) : Stand levelmax W s k i .head :=
  ⟨⟨s, hs, i, le_rfl, linked_head⟩, head_lt w hb, hi⟩

theorem inner_of_key (hb : ⊥ < k) (ht : k < ⊤) (hx : s.key x = k) : x ≠ .head ∧ x ≠ .tail :=
  ⟨w.ne_head_of_lt (k := ⊥) (by rw [hx]; exact hb), w.ne_tail_of_lt (k := ⊤) (by rw [hx]; exact ht)⟩

/-- At the last level, the key is found or was absent. -/
theorem noneSeen_or (hW : W ⊆ S) (h : Seen 0 W op.key curr) (hle : op.key ≤ s.key curr)
    (hne : op.key ≠ s.key curr) : NoneSeen W op.key := h.noneSeen w hW (lt_of_le_of_ne hle hne)

/-- What the search sees at level 0 while its victim is linked. -/
theorem eq_victim (hW : W ⊆ S) (hq : q.At levelmax t S s op) (hl : q.Linked W)
    (h : Seen 0 W op.key curr) (hle : op.key ≤ s.key curr) (hn : q = .removing n) : curr = n := by
  subst hn
  exact h.eq w hW hle (hl n rfl) hq.2.key

include hs hW hh

/-- A search that finds its node dead saw a moment without the key. -/
theorem Sight.noneSeen (h : Sight W s op.key x) (hd : s.state x = false ∨ s.lock x = optikDeleted) :
    NoneSeen W op.key := h.2 ▸ noneSeen_of_dead w hW hh h.1 hd

/-- A valid node that is not deleted holds its key. -/
theorem Sight.some (h : Sight W s op.key x) (hd : s.lock x ≠ optikDeleted)
    (hst : s.state x = true) : ∃ s₀ ∈ W, absMap s₀ op.key = some (s.val x) :=
  ⟨s, hs, h.2 ▸ absMap_some w (w.pub_zero (pub_of_met w hW h.1)) hd hst⟩

include hb ht

theorem step_ok_search (hpos : 0 < levelmax) (h : At levelmax shown t S W s op l) (level : ℕ)
    (hshown : shown → ∀ n, l = .searchDeleted n → s.lock n ≠ optikDeleted → s.state n = true)
    (hlc : l = .left ∨ (∃ p i, l = .leftNext p i) ∨ (∃ p i c, l = .leftKey p i c) ∨
      (∃ p i c, l = .leftEq p i c) ∨ (∃ n, l = .searchDeleted n) ∨ ∃ n, l = .searchVal n) :
    StepOk levelmax shown t S (insert (step level t s op l).1 W) s op l (step level t s op l).1
      (step level t s op l).2 := by
  have hlevel : ∀ pred i, (∃ k, op = .search k) → (i = 0 → NoneSeen W op.key) →
      (∀ j, i = j + 1 → Stand levelmax W s op.key j pred) →
      At levelmax shown t S W s op (leftLevel pred i) ∧ holds (leftLevel pred i : Pc T V) = ∅ ∧
        victims (leftLevel pred i : Pc T V) = ∅ ∧ lin s op (leftLevel pred i) = none := by
    intro pred i hop h0 hst
    cases i with
    | zero =>
      refine ⟨fun _ => ?_, rfl, rfl, rfl⟩
      obtain ⟨s₀, hs₀, h0⟩ := h0 rfl
      obtain ⟨k, rfl⟩ := hop
      exact ⟨s₀, hs₀, apply_search_none h0⟩
    | succ i => exact ⟨⟨hop, hst i rfl⟩, rfl, rfl, rfl⟩
  rcases hlc with rfl | ⟨p, i, rfl⟩ | ⟨p, i, c, rfl⟩ | ⟨p, i, c, rfl⟩ | ⟨n, rfl⟩ | ⟨n, rfl⟩
  · simp only [step]
    rw [w.head_top]
    exact .goes w hs (hlevel .head levelmax h (fun h0 => absurd h0 hpos.ne')
      fun j hj => stand_head w hs hb (by omega))
  · obtain ⟨h1, h2⟩ := h
    exact .read w hs rfl rfl ⟨h1, h2, seen_next w hW hh h2.met h2.lt⟩ rfl
  · obtain ⟨h1, h2, h3⟩ := h
    by_cases hlt : s.key c < op.key
    · simp only [step, hlt, if_true]
      have hmet : Met (LnkFrom i) W c :=
        let ⟨s₀, h0, hl⟩ := h3.met w hW
        ⟨s₀, h0, i, le_rfl, hl⟩
      exact .read w hs rfl rfl ⟨h1, hmet, hlt, h2.le⟩ rfl
    · simp only [step, hlt, if_false]
      exact .read w hs rfl rfl ⟨h1, h2, h3, not_lt.mp hlt⟩ rfl
  · obtain ⟨h1, h2, h3, h4⟩ := h
    by_cases he : op.key = s.key c
    · simp only [step, he, if_true]
      have hmet : Met (LnkFrom 0) W c :=
        let ⟨s₀, h0, hl⟩ := h3.met w hW
        ⟨s₀, h0, i, i.zero_le, hl⟩
      exact .read w hs rfl rfl ⟨h1, hmet, he.symm⟩ rfl
    · simp only [step, he, if_false]
      refine .goes w hs (hlevel p i h1 (fun h0 => ?_) fun j hj =>
        ⟨met_down h2.met (by omega), h2.lt, by have := h2.le; omega⟩)
      subst h0
      exact noneSeen_or w hW h3 h4 he
  · obtain ⟨h1, h2⟩ := h
    by_cases hd : s.lock n = optikDeleted
    · simp only [step, hd, if_true]
      refine .read w hs rfl rfl (fun _ => ?_) rfl
      obtain ⟨s₀, hs₀, h0⟩ := h2.noneSeen w hs hW hh (Or.inr hd)
      obtain ⟨k, rfl⟩ := h1
      exact ⟨s₀, hs₀, apply_search_none h0⟩
    · simp only [step, hd, if_false]
      exact .read w hs rfl rfl ⟨h1, w.pub_zero (pub_of_met w hW h2.1),
        fun hsh => h2.some w hs hW hh hd (hshown hsh n rfl hd)⟩ rfl
  · obtain ⟨⟨k, rfl⟩, h2, h3⟩ := h
    refine .read w hs rfl rfl (fun hsh => ?_) rfl
    obtain ⟨s₀, hs₀, h0⟩ := h3 hsh
    exact ⟨s₀, hs₀, apply_search_some h0⟩

omit hs hW hh hb ht in
/-- The search opens its window. -/
theorem step_ok_open (h : At levelmax shown t S W s op (.find q)) :
    StepOk levelmax shown t S {s} s op (.find q) s (.findTop q (s.lock .head)) := by
  refine ⟨.skip, ⟨?_, ?_, ?_⟩, Or.inl ⟨rfl, rfl⟩⟩
  · rw [Set.insert_eq_of_mem w.mem]
    exact h
  · rintro n rfl s₀ rfl
    exact h.2.lnk 0 le_rfl h.2.pos
  · exact ⟨(w.listed 0).alloc _ (w.pub_head 0), le_rfl⟩

theorem step_ok_find (hpos : 0 < levelmax) {level : ℕ} (hlevel : 0 < level ∧ level ≤ levelmax)
    (h : At levelmax shown t S W s op l)
    (hlc : l = .insertLevel ∨ (∃ q v, l = .findTop q v) ∨
      (∃ q p v i a f, l = .findNext q p v i a f) ∨ (∃ q p v i a f c, l = .findLock q p v i a f c) ∨
      (∃ q p v i a f c cv, l = .findKey q p v i a f c cv) ∨
      ∃ q p v i a f c cv, l = .findEq q p v i a f c cv) :
    StepOk levelmax shown t S (insert (step level t s op l).1 W) s op l (step level t s op l).1
      (step level t s op l).2 := by
  rcases hlc with rfl | ⟨q, v, rfl⟩ | ⟨q, p, v, i, a, f, rfl⟩ | ⟨q, p, v, i, a, f, c, rfl⟩ |
    ⟨q, p, v, i, a, f, c, cv, rfl⟩ | ⟨q, p, v, i, a, f, c, cv, rfl⟩
  · obtain ⟨k, v, rfl⟩ := h
    exact .read w hs rfl rfl ⟨hlevel.1, hlevel.2, k, v, rfl, Or.inl ⟨rfl, rfl⟩⟩ rfl
  · obtain ⟨h1, h2, h3⟩ := h
    have hvac : ∀ {j : ℕ}, levelmax ≤ j → j < levelmax → False := fun h1 h2 => by omega
    have ha : noPreds.At levelmax S s op.key ((none : Option (Ptr T × OptikT)) = none) levelmax :=
      ⟨fun j h4 h5 => (hvac h4 h5).elim, fun j h4 h5 => (hvac h4 (Nat.lt_of_succ_lt h5)).elim⟩
    simp only [step]
    rw [w.head_top]
    exact .goes w hs (at_findLevel w h1 h2 ha nofun (fun h0 => absurd h0 hpos.ne')
      (fun h0 => absurd h0 hpos.ne') fun j hj =>
        ⟨stand_head w hs hb (by omega), h3, fun hlt => absurd hlt (lt_irrefl _)⟩)
  · obtain ⟨h1, h2, h3⟩ := h
    have hp := pub_of_met w hW h3.stand.met
    have hpt := w.ne_tail_of_lt h3.stand.lt
    refine .read w hs rfl rfl ⟨h1, h2, h3, seen_next w hW hh h3.stand.met h3.stand.lt,
      ⟨s, w.mem, h3.since, w.lnk hp, rfl⟩, (w.up hp hpt).2⟩ rfl
  · obtain ⟨h1, h2, h3, h4⟩ := h
    have hc := (h4.seen.met w hW).mono hW
    exact .read w hs rfl rfl ⟨h1, h2, h3, h4, (w.listed i).alloc c hc, le_rfl⟩ rfl
  · obtain ⟨h1, h2, h3, h4, h5⟩ := h
    by_cases hlt : s.key c < op.key
    · simp only [step, hlt, if_true]
      have hmet : Met (LnkFrom i) W c :=
        let ⟨s₀, h0, hl⟩ := h4.seen.met w hW
        ⟨s₀, h0, i, le_rfl, hl⟩
      refine .read w hs rfl rfl ⟨h1, h2, ⟨hmet, hlt, h3.stand.le⟩, h5, h3.preds,
        fun hi => Or.inr ?_, h3.found⟩ rfl
      rcases h3.chain hi with ⟨he, -⟩ | hlt'
      · rw [he]
        exact h4.lt
      · exact hlt'.trans h4.lt
    · simp only [step, hlt, if_false]
      by_cases hd : v = optikDeleted
      · simp only [hd, if_true]
        exact .read w hs rfl rfl h1 rfl
      · simp only [hd, if_false]
        have hne : ∀ {j}, i + 1 ≤ j → (a.set i p v).preds j = a.preds j ∧
            (a.set i p v).predsv j = a.predsv j := fun hj =>
          have hji := (Nat.lt_of_succ_le hj).ne'
          ⟨Function.update_of_ne hji .., Function.update_of_ne hji ..⟩
        refine .read w hs rfl rfl ⟨h1, h2, ⟨h3.stand, h3.since, ⟨fun j hj hjl => ?_,
          fun j hj hjl => ?_⟩, fun hi => ?_, h3.found⟩, h4, Function.update_self ..,
          Function.update_self .., not_lt.mp hlt⟩ rfl
        · obtain ⟨h6, h7, h8⟩ := h3.preds.spot j hj hjl
          refine ⟨?_, ?_, ?_⟩
          · rw [(hne hj).1]
            exact h6
          · rw [(hne hj).1]
            exact h7
          · rw [(hne hj).1, (hne hj).2]
            exact h8
        · have hj' := Nat.le_succ_of_le hj
          rw [(hne hj).1, (hne hj).2, (hne hj').1, (hne hj').2]
          exact h3.preds.chain j hj hjl
        · rw [(hne le_rfl).1, (hne le_rfl).2]
          exact h3.chain hi
  · obtain ⟨h1, h2, h3, h4, rfl, rfl, h7⟩ := h
    have hmet := h4.seen.met w hW
    have hspot : a.Spot S s op.key (op.key ≠ s.key c) i :=
      ⟨pub_of_met w hW h3.stand.met, h3.stand.lt, c, h4.version, hmet.mono hW, h7, Ne.symm⟩
    have hdown : ∀ j, i = j + 1 → Stand levelmax W s op.key j (a.preds i) ∧
        Since s (a.preds i) (a.predsv i) ∧ (i < levelmax → a.preds i = a.preds i ∧
          a.predsv i = a.predsv i ∨ s.key (a.preds i) < s.key (a.preds i)) := fun j hj =>
      ⟨⟨met_down h3.stand.met (by omega), h3.stand.lt, by have := h3.stand.le; omega⟩, h3.since,
        fun _ => Or.inl ⟨rfl, rfl⟩⟩
    have hat : ∀ f' : Option (Ptr T × OptikT), (f' = none → f = none ∧ op.key ≠ s.key c) →
        a.At levelmax S s op.key (f' = none) i := by
      intro f' hf'
      refine ⟨fun j hij hj => ?_, fun j hij hj => ?_⟩
      · rcases hij.eq_or_lt with rfl | hij
        · exact hspot.mono fun h => (hf' h).2
        · exact (h3.preds.spot j hij hj).mono fun h => (hf' h).1
      · rcases hij.eq_or_lt with rfl | hij
        · exact h3.chain hj
        · exact h3.preds.chain j hij hj
    by_cases he : op.key = s.key c
    · simp only [step, he, if_true]
      have hsight : Sight W s op.key c :=
        ⟨let ⟨s₀, h0, hl⟩ := hmet
         ⟨s₀, h0, i, i.zero_le, hl⟩, he.symm⟩
      refine .goes w hs (at_findLevel w h1 h2 (hat (some (c, cv)) nofun) (fun c' v' hf => ?_)
        (fun _ => nofun) (fun h0 n hn => ?_) hdown)
      · cases hf
        exact hsight
      · subst h0
        exact ⟨cv, by rw [eq_victim w hW h1 h2 h4.seen h7 hn]⟩
    · simp only [step, he, if_false]
      refine .goes w hs (at_findLevel w h1 h2 (hat f fun hf => ⟨hf, he⟩) h3.found
        (fun h0 _ => ?_) (fun h0 n hn => ?_) hdown)
      · subst h0
        exact noneSeen_or w hW h4.seen h7 he
      · subst h0
        obtain rfl := eq_victim w hW h1 h2 h4.seen h7 hn
        subst hn
        exact absurd h1.2.key.symm he

end step

/-! ### Locks and words -/

section words

variable {l l' : Pc T V} (w : Wf levelmax S s)

include w

omit [Zero V] w in
theorem NewNode.congr {v : V} {h : ℕ} (hn : NewNode levelmax t S s k v h i n)
    (hk : s'.key n = s.key n) (hv : s'.val n = s.val n) (htop : s'.toplevel n = s.toplevel n)
    (hst : s'.state n = s.state n) (hc : s.count t ≤ s'.count t)
    (hpub : ∀ j, Pub j (insert s' S) n ↔ Pub j S n) :
    NewNode levelmax t (insert s' S) s' k v h i n := by
  obtain ⟨⟨c, hc', h1⟩, h2, h3, h4, h5, h6, h7, h8⟩ := hn
  exact ⟨⟨c, hc', h1.trans_le hc⟩, hk.trans h2, hv.trans h3, htop.trans h4, h5, hst.trans h6,
    fun j hj => (hpub j).mpr (h7 j hj), fun j hj hp => h8 j hj ((hpub j).mp hp)⟩

omit [Zero V] in
theorem NewNode.setLock {v : V} {h : ℕ} {o : OptikT} (hn : NewNode levelmax t S s k v h i n) :
    NewNode levelmax t (insert (s.setLock x o) S) (s.setLock x o) k v h i n :=
  hn.congr (key_setLock ..) (val_setLock ..) (toplevel_setLock ..) (state_setLock ..) le_rfl
    fun j => (setLock_same S s x o j).pub (w.listed j) n

/-- A write to a word changes nothing that an assertion speaks of. -/
theorem At.setLock {v : OptikT} {H' X' : Set (Ptr T)} (hs : s ∈ W) (hW : W ⊆ S)
    (hact : Act levelmax t S s H X H' X' (s.setLock x v)) (hc : Clear s H X)
    (hl : ∀ a low i z ver, l ≠ .unlockStore a low i z ver) (h : At levelmax shown t S W s op l) :
    At levelmax shown t (insert (s.setLock x v) S) (insert (s.setLock x v) W) (s.setLock x v) op
      l :=
  h.transfer w (hact.wf w hc) hs hW (hact.keeps w) (fun y _ i _ => next_setLock s x y i v)
    (fun a low i z ver he => absurd he (hl a low i z ver))
    (fun y _ j hy => ((setLock_same S s x v j).lnk (w.listed j) y).mpr hy)
    fun hn => ⟨hn.setLock w, next_setLock ..⟩

/-- A predecessor whose word is as the search read it leads where the search saw
it lead. -/
theorem Locking.take (h : Locking levelmax t S s op z a i i) (hi : i < z.top) (hlow : z.low ≤ i)
    (hu : optikIsLocked (a.predsv i) = false) (he : s.lock (a.preds i) = a.predsv i) :
    Locking levelmax t S s op z a i (i + 1) := by
  have htop := hi.trans_le h.top_le
  have hnew : ∀ j < levelmax, a.preds j = a.preds i → op.key ≤ s.key (s.next (a.preds j) j) ∧
      (z.Fresh → s.key (s.next (a.preds j) j) ≠ op.key) := by
    intro j hj hji
    obtain ⟨-, -, q, h1, -, h2⟩ := h.preds.spot j j.zero_le hj
    have hv := h.preds.same htop hj hji
    rw [h1.next_eq w (by rwa [hv]) (by rw [hji, hv, he])]
    exact h2
  refine ⟨h.locker, h.preds, fun j hj hm => ?_, fun hf hi0 _ => ?_⟩
  · rw [taken_succ a hlow] at hm
    rcases hm with hm | hm
    · exact (hnew j hj hm).1
    · exact h.held j hj hm
  · subst hi0
    obtain ⟨h1, h2⟩ := hnew 0 htop rfl
    exact lt_of_le_of_ne h1 (h2 hf).symm

variable (hs : s ∈ W) (hW : W ⊆ S) (hm : Mine s (holds l) (victims l))

include hs hW hm

theorem step_ok_lock {level : ℕ} (h : At levelmax shown t S W s op l)
    (hd : ∀ x, optikIsLocked (s.lock x) = false → (step level t s op l).1.lock x = s.lock x + 1 →
      s.lock x + 1 ≠ optikDeleted)
    (hlc : (∃ z a i p, l = .lock z a i p) ∨ ∃ z a i, l = .lockCas z a i) :
    StepOk levelmax shown t S (insert (step level t s op l).1 W) s op l (step level t s op l).1
      (step level t s op l).2 := by
  rcases hlc with ⟨z, a, i, p, rfl⟩ | ⟨z, a, i, rfl⟩
  · obtain ⟨h1, h2⟩ := h
    by_cases hi : i < z.top
    · have hpub := (h1.preds.spot i i.zero_le (hi.trans_le h1.top_le)).pub
      by_cases hp : p = a.preds i
      · -- the predecessor of the level below
        obtain ⟨h3, h4⟩ := h2.resolve_left fun h => ne_null w (w.pub_zero hpub) (hp.symm.trans h.1)
        obtain ⟨m, rfl⟩ := Nat.exists_eq_succ_of_ne_zero (Nat.ne_zero_of_lt h3)
        have hmem : a.preds (m + 1) ∈ a.taken z.low (m + 1) :=
          ⟨m, Nat.le_of_lt_succ h3, m.lt_succ_self, hp.symm.trans h4⟩
        have hset := taken_succ a h3.le
        rw [Set.insert_eq_of_mem hmem] at hset
        have hlk : Locking levelmax t S s op z a (m + 1) (m + 1 + 1) :=
          ⟨h1.locker, h1.preds, by rw [hset]; exact h1.held, fun _ h0 => absurd h0 m.succ_ne_zero⟩
        obtain ⟨h5, h6, h7, h8⟩ : At levelmax shown t S W s op (locked z a (m + 1)) ∧ _ :=
          at_locked w hlk hi
        simp only [step, hi, hp, if_true]
        exact .read w hs (h6.trans hset) h7 h5 h8
      · simp only [step, hi, hp, if_true, if_false]
        by_cases ho : optikOutdated (s.lock (a.preds i)) (a.predsv i) = true
        · simp only [ho, if_true]
          exact .goes w hs (at_failed w h1 hi)
        · simp only [ho]
          exact .read w hs rfl rfl ⟨h1, hi, not_locked_of_outdated ho⟩ rfl
    · simp only [step, hi, if_false]
      exact .goes w hs (at_allLocked w h1 hi)
  · obtain ⟨h1, hi, hu⟩ := h
    have hlow : z.low ≤ i := by
      cases z with
      | insert => exact h1.locker.2.1
      | remove => exact i.zero_le
    have hpub := w.pub_zero (h1.preds.spot i i.zero_le (hi.trans_le h1.top_le)).pub
    rcases hc : s.casLock (a.preds i) (a.predsv i) (a.predsv i + 1) with ⟨⟨⟩, s'⟩
    · simp only [step, hc]
      rw [casLock_false hc]
      exact .goes w hs (at_failed w h1 hi)
    · obtain ⟨he, rfl⟩ := casLock_true hc
      have hd' : s.lock (a.preds i) + 1 ≠ optikDeleted :=
        hd (a.preds i) (he ▸ hu) (by simp [step, hc, he])
      simp only [step, hc]
      obtain ⟨h5, h6, h7, h8⟩ : At levelmax shown t S W s op (locked z a i) ∧ _ :=
        at_locked w (h1.take w hi hlow hu he) hi
      have hact : Act levelmax t S s (a.taken z.low i) z.victims (a.taken z.low (i + 1)) z.victims
          (s.setLock (a.preds i) (a.predsv i + 1)) := by
        rw [taken_succ a hlow, ← he]
        exact .take hpub (he ▸ hu) hd'
      refine ⟨?_, h5.setLock w hs hW hact hm.clear (by cases z <;> nofun), Or.inl ⟨?_, ?_⟩⟩
      · rw [h6, h7]
        exact hact
      · exact (lin_congr fun y => val_setLock ..).trans h8
      · refine hact.absMap_eq w (fun y _ => state_setLock ..) fun y hy => ?_
        by_cases hyp : y = a.preds i
        · rw [hyp, lock_setLock_self, ← he] at hy
          exact absurd hy hd'
        · rwa [lock_setLock_of_ne s _ y _ hyp] at hy

omit [BoundedOrder K] hs hW hm w in
theorem taken_of_le {low : ℕ} (h : i ≤ low) : a.taken low i = ∅ :=
  Set.eq_empty_of_forall_notMem fun _ ⟨_, h1, h2, _⟩ => absurd (h1.trans_lt h2) (not_lt.mpr h)

theorem step_ok_unlock {level : ℕ} (h : At levelmax shown t S W s op l)
    (hlc : (∃ a low i old z, l = .unlock a low i old z) ∨
      ∃ a low i z v, l = .unlockStore a low i z v) :
    StepOk levelmax shown t S (insert (step level t s op l).1 W) s op l (step level t s op l).1
      (step level t s op l).2 := by
  rcases hlc with ⟨a, low, i, old, z, rfl⟩ | ⟨a, low, i, z, v, rfl⟩
  · obtain ⟨h1, h2, h3, h4⟩ := h
    obtain ⟨h5, h6, h7, h8⟩ : At levelmax shown t S W s op (unlocked z) ∧ _ := at_unlocked w h4
    cases i with
    | zero =>
      refine .read w hs (h6.trans ?_) h7 h5 h8
      rw [holds, taken_of_le low.zero_le, Set.empty_sdiff]
    | succ i =>
      by_cases hlow : low ≤ i
      · by_cases ho : old = a.preds i
        · simp only [step, hlow, ho, if_true]
          refine .read w hs ?_ rfl ⟨h1, Nat.le_of_succ_le h2, Or.inr ⟨rfl, h2⟩, h4⟩ rfl
          rw [holds, holds, taken_succ a hlow, Set.insert_sdiff_of_mem _ (Set.mem_singleton _)]
        · simp only [step, hlow, ho, if_true, if_false]
          refine .read w hs ?_ rfl ⟨h1, hlow, h2, h4, rfl⟩ rfl
          refine (Set.sdiff_singleton_eq_self ?_).symm
          rcases h3 with rfl | ⟨rfl, h3⟩
          · exact null_not_taken w h1 h2
          · exact h1.not_taken h3 ho
      · simp only [step, hlow, if_false]
        refine .read w hs (h6.trans ?_) h7 h5 h8
        rw [holds, taken_of_le (Nat.succ_le_of_lt (not_le.mp hlow)), Set.empty_sdiff]
  · obtain ⟨h1, hlow, h3, h4, rfl⟩ := h
    have hmem : a.preds i ∈ a.taken low (i + 1) := ⟨i, hlow, i.lt_succ_self, rfl⟩
    have hlk := hm.locked _ hmem
    have hleans : ∀ y ∈ z.victims, ∀ j, ¬ Leans j s y := by
      rcases z with ⟨⟨top, upto, n⟩ | _ | n⟩ | _ | n
      case restart.removing =>
        rintro y rfl j ⟨⟨h, hjh, hl⟩, hn⟩
        have hv := h4.2
        have hin := w.inner (w.state hv.deleted)
        exact hn (hv.lnk j j.zero_le (hjh.trans_lt (w.tall (w.pub_lnk hl) hin.1 hin.2).1))
      all_goals exact fun y hy => hy.elim
    have hact : Act levelmax t S s (a.taken low (i + 1)) z.victims
        (a.taken low (i + 1) \ {a.preds i}) z.victims
        (s.setLock (a.preds i) (s.lock (a.preds i) + 1)) :=
      .unlock hmem (w.pub_of_locked hlk) hlk hleans
    have hat : At levelmax shown t S W s op (.unlock a low i (a.preds i) z) :=
      ⟨h1, h3.le, Or.inr ⟨rfl, h3⟩, h4⟩
    refine ⟨?_, hat.setLock w hs hW hact hm.clear nofun,
      Or.inl ⟨lin_congr fun y => val_setLock .., ?_⟩⟩
    · have hset : a.taken low (i + 1) \ {a.preds i} = a.taken low i \ {a.preds i} := by
        rw [taken_succ a hlow, Set.insert_sdiff_of_mem _ (Set.mem_singleton _)]
      rw [hset] at hact
      exact hact
    · refine hact.absMap_eq w (fun y _ => state_setLock ..) fun y hy => ?_
      by_cases hyp : y = a.preds i
      · have hu := unlock_unlocked hlk.locked hlk.ne_deleted
        rw [hyp, lock_setLock_self] at hy
        rw [hy, optikDeleted_locked] at hu
        cases hu
      · rwa [lock_setLock_of_ne s _ y _ hyp] at hy

end words

/-! ### Inserting and removing -/

section write

variable {l l' : Pc T V} (w : Wf levelmax S s) (hs : s ∈ W) (hW : W ⊆ S) (hh : Hind W s)
  (hb : ⊥ < op.key) (ht : op.key < ⊤) (hm : Mine s (holds l) (victims l))

include w hs hW hh hb ht hm

theorem step_ok_found {level : ℕ} (h : At levelmax shown t S W s op l)
    (hshown : shown → ∀ top n x, l = .insertDeleted top n x → s.lock x ≠ optikDeleted →
      s.state x = true)
    (hlc : (∃ top n x, l = .insertDeleted top n x) ∨ (∃ n, l = .insertFree n) ∨
      (∃ a x v, l = .removeDeleted a x v) ∨ (∃ a x v, l = .removeState a x v) ∨
      (∃ a x v, l = .removeTry a x v) ∨ (∃ a x v, l = .removeCas a x v) ∨
      (∃ x, l = .removeFailed x) ∨ ∃ a x, l = .removeTop a x) :
    StepOk levelmax shown t S (insert (step level t s op l).1 W) s op l (step level t s op l).1
      (step level t s op l).2 := by
  have hgone : ∀ {x}, (∃ k, op = .remove k) → Sight W s op.key x →
      s.state x = false ∨ s.lock x = optikDeleted →
      At levelmax shown t S W s op (.unchanged (.val 0)) := by
    rintro x ⟨k, rfl⟩ hx hd -
    obtain ⟨s₀, hs₀, h0⟩ := hx.noneSeen w hs hW hh hd
    exact ⟨s₀, hs₀, apply_remove_none h0⟩
  rcases hlc with ⟨top, n, x, rfl⟩ | ⟨n, rfl⟩ | ⟨a, x, v, rfl⟩ | ⟨a, x, v, rfl⟩ | ⟨a, x, v, rfl⟩ |
    ⟨a, x, v, rfl⟩ | ⟨x, rfl⟩ | ⟨a, x, rfl⟩
  · obtain ⟨h1, h2⟩ := h
    by_cases hd : s.lock x = optikDeleted
    · simp only [step, hd, if_true]
      exact .read w hs rfl rfl h1 rfl
    · have hsome : shown → ∃ s₀ ∈ W, (mapObject K V).apply op (absMap s₀) =
          (absMap s₀, .flag false) := fun hsh => by
        obtain ⟨s₀, hs₀, h0⟩ := h2.some w hs hW hh hd (hshown hsh top n x rfl hd)
        obtain ⟨-, -, k, v, rfl, -⟩ := h1
        exact ⟨s₀, hs₀, apply_insert_some h0⟩
      simp only [step, hd, if_false]
      split_ifs
      · exact .read w hs rfl rfl hsome rfl
      · exact .read w hs rfl rfl hsome rfl
  · have hact : Act levelmax t S s ∅ ∅ ∅ ∅ (s.ssmemFree n) := .free n
    refine ⟨hact, fun hsh => ?_, Or.inl ⟨rfl, rfl⟩⟩
    obtain ⟨s₀, hs₀, h0⟩ := h hsh
    exact ⟨s₀, Set.mem_insert_of_mem _ hs₀, h0⟩
  · obtain ⟨h1, h2, h3⟩ := h
    by_cases hd : s.lock x = optikDeleted
    · simp only [step, hd, if_true]
      exact .read w hs rfl rfl (hgone h1 h3 (Or.inr hd)) rfl
    · simp only [step, hd, if_false]
      exact .read w hs rfl rfl ⟨h1, h2, h3⟩ rfl
  · obtain ⟨h1, h2, h3⟩ := h
    rcases hst : s.state x
    · simp only [step, hst]
      exact .read w hs rfl rfl (hgone h1 h3 (Or.inl hst)) rfl
    · simp only [step, hst, if_true]
      exact .read w hs rfl rfl ⟨h1, h2, h3, hst⟩ rfl
  · obtain ⟨h1, h2, h3, h4⟩ := h
    by_cases ho : optikOutdated (s.lock x) v = true
    · simp only [step, ho, if_true]
      exact .read w hs rfl rfl ⟨h1, h3⟩ rfl
    · simp only [step, ho]
      exact .read w hs rfl rfl ⟨h1, h2, h3, h4, not_locked_of_outdated ho⟩ rfl
  · obtain ⟨⟨k, rfl⟩, h2, h3, hst, hu⟩ := h
    rcases hc : s.casLock x v optikDeleted with ⟨⟨⟩, s'⟩
    · simp only [step, hc]
      rw [casLock_false hc]
      exact .read w hs rfl rfl ⟨⟨k, rfl⟩, h3⟩ rfl
    · obtain ⟨he, rfl⟩ := casLock_true hc
      simp only [step, hc]
      have hp := w.pub_zero (pub_of_met w hW h3.1)
      have hd : s.lock x ≠ optikDeleted := fun hd => by
        rw [← he, hd, optikDeleted_locked] at hu
        cases hu
      have hact : Act levelmax t S s ∅ ∅ ∅ {x} (s.setLock x optikDeleted) :=
        .delete hp (he ▸ hu) hst rfl
      have hin := w.inner hst
      obtain ⟨hv, habs⟩ := delete_absMap w hp hd hst
      rw [show s.key x = k from h3.2] at hv habs
      refine ⟨hact, ⟨⟨k, rfl⟩, h2.step w (hact.keeps w), hp.insert _, ?_, lock_setLock_self .., rfl,
        ?_, fun j _ hj => ?_, fun j hj => absurd hj j.not_lt_zero⟩, Or.inr ⟨rfl, _, rfl, ?_⟩⟩
      · rw [key_setLock]
        exact h3.2
      · rw [toplevel_setLock]
        exact (w.tall hp hin.1 hin.2).1
      · rw [toplevel_setLock] at hj
        exact ((setLock_same S s x _ j).lnk (w.listed j) x).mpr (w.lnk (w.full hst hj) hd)
      · rw [val_setLock, apply_remove_some hv, ← habs]
  · obtain ⟨h1, h2⟩ := h
    by_cases hd : s.lock x = optikDeleted
    · simp only [step, hd, if_true]
      exact .read w hs rfl rfl (hgone h1 h2 (Or.inr hd)) rfl
    · simp only [step, hd, if_false]
      exact .read w hs rfl rfl h1 rfl
  · obtain ⟨h1, h2, h3⟩ := h
    have hin := w.inner (w.state h3.deleted)
    refine .read w hs (taken_self a 0) rfl ⟨⟨⟨h1, Nat.zero_le _, (w.tall h3.pub hin.1 hin.2).2, h3⟩,
      h2, fun j _ hm => ?_, fun hf => hf.elim⟩, Or.inl ⟨rfl, rfl⟩⟩ rfl
    rw [show Locker.low (.remove x (s.toplevel x)) = 0 from rfl, taken_self] at hm
    exact hm.elim

omit hh hb ht hm in
theorem step_ok_alloc {level top upto : ℕ} {a : Preds T}
    (h : At levelmax shown t S W s op (.insertAlloc top upto a)) :
    StepOk levelmax shown t S (insert (step level t s op (.insertAlloc top upto a)).1 W) s op
      (.insertAlloc top upto a) (step level t s op (.insertAlloc top upto a)).1
      (step level t s op (.insertAlloc top upto a)).2 := by
  obtain ⟨rfl, h1, h2, ⟨k, v, rfl⟩, h3⟩ := h
  have hact : Act levelmax t S s ∅ ∅ ∅ ∅ (s.allocateSlLockedUnlinked t k v top).1 := .alloc rfl rfl
  have hself : (s.allocateSlLockedUnlinked t k v top).1.mem (.node t (s.count t)) =
      ⟨k, v, top, false, optikInit, fun _ => .null⟩ := s.mem_allocate_self _ t
  have hnode : NewNode levelmax t (insert (s.allocateSlLockedUnlinked t k v top).1 S)
      (s.allocateSlLockedUnlinked t k v top).1 k v top 0 (.node t (s.count t)) := by
    refine ⟨⟨_, rfl, s.count_allocate_self _ t⟩, congrArg SlLocked.key hself,
      congrArg SlLocked.val hself, congrArg SlLocked.toplevel hself, h2,
      congrArg SlLocked.state hself, fun j hj => absurd hj j.not_lt_zero, fun j _ hp => ?_⟩
    have hp := ((alloc_same w t _ j).pub (w.listed j) _).mp hp
    exact alloc_ne w t (w.pub_zero hp) rfl
  refine ⟨?_, ⟨⟨⟨h1, le_rfl, h1.le, h2, k, v, rfl, hnode⟩, h3.mono (fun _ => trivial) |>.step w
    (hact.keeps w), fun j _ hm => ?_, fun _ _ h => absurd h (lt_irrefl 0)⟩, Or.inl ⟨rfl, rfl⟩⟩,
    Or.inl ⟨rfl, ?_⟩⟩
  · have hset : holds (.lock (.insert top 0 (.node t (s.count t))) a 0 .null : Pc T V) = ∅ :=
      taken_self a 0
    simp only [step]
    rw [show (s.allocateSlLockedUnlinked t k v top).2 = .node t (s.count t) from rfl, hset]
    exact hact
  · rw [show Locker.low (.insert top 0 _) = 0 from rfl, taken_self] at hm
    exact hm.elim
  · refine hact.absMap_eq w (fun y hy => ?_) fun y hy => ?_
    · exact congrArg SlLocked.state (s.mem_allocate_of_ne y _ t (alloc_ne w t hy))
    · by_cases hyt : y = .node t (s.count t)
      · subst hyt
        have hl : optikInit = optikDeleted := (congrArg SlLocked.lock hself).symm.trans hy
        exact absurd hl (by decide)
      · exact (congrArg SlLocked.lock (s.mem_allocate_of_ne y _ t hyt)).symm.trans hy

omit [Zero V] hs hW hh hb ht hm in
/-- The key is not linked yet at the level at which `insert` links it. -/
theorem Locking.fresh {top upto : ℕ} {a : Preds T}
    (h : Locking levelmax t S s op (.insert top upto n) a i (i + 1)) (hi : i < top)
    (hl : Lnk i s (a.preds i)) : op.key < s.key (s.next (a.preds i) i) := by
  obtain ⟨-, h1, -, h2, k, v, rfl, h3⟩ := h.locker
  have hp := h.preds.spot i i.zero_le (hi.trans_le h2)
  have hle := h.held i (hi.trans_le h2) ⟨i, h1, i.lt_succ_self, rfl⟩
  rcases Nat.eq_zero_or_pos i with rfl | hpos
  · exact h.first (Nat.le_zero.mp h1) rfl Nat.one_pos
  · refine lt_of_le_of_ne hle fun he => h3.free i le_rfl ?_
    have hln : Lnk i s (s.next (a.preds i) i) := hl.next (w.ne_tail_of_lt hp.lt)
    have := alone w w.mem ⟨i, i.zero_le, hln⟩ (w.lnk (h3.pub 0 hpos) (w.not_deleted h3.half))
      (he.symm.trans h3.key.symm)
    exact this ▸ w.pub_lnk hln

omit hh hb ht in
theorem step_ok_insert {level : ℕ} (h : At levelmax shown t S W s op l)
    (hlc : (∃ top upto n a i, l = .insertNext top upto n a i) ∨
      (∃ top upto n a i r, l = .insertFill top upto n a i r) ∨
      (∃ top upto n a i, l = .insertLink top upto n a i) ∨
      ∃ top upto n a, l = .insertState top upto n a) :
    StepOk levelmax shown t S (insert (step level t s op l).1 W) s op l (step level t s op l).1
      (step level t s op l).2 := by
  rcases hlc with ⟨top, upto, n, a, i, rfl⟩ | ⟨top, upto, n, a, i, r, rfl⟩ |
    ⟨top, upto, n, a, i, rfl⟩ | ⟨top, upto, n, a, rfl⟩
  · exact .read w hs rfl rfl ⟨h.1, h.2, rfl⟩ rfl
  · obtain ⟨h1, hi, rfl⟩ := h
    obtain ⟨h2, h3, h4, h5, k, v, rfl, h6⟩ := h1.locker
    obtain ⟨d, rfl, hd⟩ := id h6.node
    have hn := h6.free i le_rfl
    have hact : Act levelmax t S s (a.taken upto (i + 1)) ∅ (a.taken upto (i + 1)) ∅
        (s.setNext (.node t d) i (s.next (a.preds i) i)) := .fill hn
    have hnext : ∀ {x j}, Pub j S x → (s.setNext (.node t d) i (s.next (a.preds i) i)).next x j =
        s.next x j := fun {x j} hp => by
      refine next_setNext_of_ne s _ x _ i j (not_and_or.mp ?_)
      rintro ⟨rfl, rfl⟩
      exact hn hp
    refine ⟨hact, ⟨?_, hi, ?_⟩, Or.inl ⟨rfl, ?_⟩⟩
    · exact h1.step w (hact.keeps w) (fun x _ j hp => hnext hp) (fun x hx => hx.elim) fun hn' =>
        hn'.congr (key_setNext ..) (val_setNext ..) (toplevel_setNext ..) (state_setNext ..) le_rfl
          fun j => (fill_same hn _ j).pub (w.listed j) _
    · simp only [step]
      rw [next_setNext_self, hnext (h1.preds.spot i i.zero_le (hi.trans_le h5)).pub]
    · exact hact.absMap_eq w (fun y _ => state_setNext ..)
        fun y hy => (lock_setNext ..).symm.trans hy
  · obtain ⟨h1, hi, hnq⟩ := h
    obtain ⟨h2, h3, h4, h5, k, v, rfl, h6⟩ := id h1.locker
    obtain ⟨d, rfl, hd⟩ := id h6.node
    have hlt := hi.trans_le h5
    have hspot := h1.preds.spot i i.zero_le hlt
    have hmem : a.preds i ∈ a.taken upto (i + 1) := ⟨i, h3, i.lt_succ_self, rfl⟩
    have hlk := hm.locked _ hmem
    have hl : Lnk i s (a.preds i) := w.lnk_of_locked hlk hspot.pub
    have hpt := w.ne_tail_of_lt hspot.lt
    have hn := h6.free i le_rfl
    have hact : Act levelmax t S s (a.taken upto (i + 1)) ∅ (a.taken upto (i + 1)) ∅
        (s.setNext (a.preds i) i (.node t d)) := by
      refine .link hmem hlk hl hn hd h6.pub hnq ?_ ?_ (by rw [h6.top]; exact hi)
        (by rw [h6.top]; exact h5) h6.half rfl
      · rw [h6.key]
        exact hspot.lt
      · rw [h6.key]
        exact h1.fresh w hi hl
    have hpub := (setNext_swing s (a.preds i) i (.node t d)).link_pub w.listed hl hpt hn hnq
    refine ⟨hact, ⟨⟨⟨h2, Nat.le_succ_of_le h3, hi, h5, k, v, rfl, ?_⟩,
      h1.preds.step w (hact.keeps w), fun j hj hjm => ?_, fun _ h0 => absurd h0 i.succ_ne_zero⟩,
      Or.inr ⟨Nat.lt_succ_of_le h3, rfl⟩⟩, Or.inl ⟨rfl, ?_⟩⟩
    · refine ⟨⟨d, rfl, hd⟩, (key_setNext ..).trans h6.key, (val_setNext ..).trans h6.val,
        (toplevel_setNext ..).trans h6.top, h5, (state_setNext ..).trans h6.half,
        fun j hj => (hpub j _).mpr ?_, fun j hj hp => ?_⟩
      · rcases Nat.lt_succ_iff_lt_or_eq.mp hj with hj | rfl
        · exact Or.inl (h6.pub j hj)
        · exact Or.inr ⟨rfl, rfl⟩
      · rcases (hpub j _).mp hp with hp | ⟨rfl, -⟩
        · exact h6.free j (Nat.le_of_succ_le hj) hp
        · exact absurd hj (Nat.not_succ_le_self j)
    · show k ≤ (s.setNext (a.preds i) i (.node t d)).key _
      simp only [step]
      by_cases hji : a.preds j = a.preds i ∧ j = i
      · rw [hji.1, hji.2, next_setNext_self, key_setNext]
        exact h6.key.ge
      · rw [next_setNext_of_ne s _ _ _ i j (not_and_or.mp hji), key_setNext]
        exact h1.held j hj hjm
    · exact hact.absMap_eq w (fun y _ => state_setNext ..)
        fun y hy => (lock_setNext ..).symm.trans hy
  · obtain ⟨h2, h3, h4, h5, k, v, rfl, h6⟩ := id h.locker
    obtain ⟨d, rfl, hd⟩ := id h6.node
    have hp := h6.pub 0 ((Nat.zero_le upto).trans_lt h2)
    have hact : Act levelmax t S s (a.taken upto top) ∅ (a.taken upto top) ∅
        (s.setState (.node t d)) := by
      refine .valid hp fun i hi => w.lnk (h6.pub i ?_) (w.not_deleted h6.half)
      rwa [h6.top] at hi
    have hset : holds (.unlock a upto top .null .inserted : Pc T V) = a.taken upto top :=
      Set.sdiff_singleton_eq_self (null_not_taken w h.preds h5)
    obtain ⟨hnone, habs⟩ := valid_absMap w hp h6.half ⟨nofun, nofun⟩
    rw [h6.key] at hnone habs
    rw [h6.val] at habs
    refine ⟨?_, ⟨(h.preds.mono False.elim).step w (hact.keeps w), h5, Or.inl rfl, trivial⟩,
      Or.inr ⟨rfl, _, rfl, ?_⟩⟩
    · simp only [step]
      rw [hset]
      exact hact
    · rw [apply_insert_none hnone, ← habs]
      rfl

end write

section remove

variable {l l' : Pc T V} (w : Wf levelmax S s) (hs : s ∈ W) (hW : W ⊆ S)
  (hm : Mine s (holds l) (victims l))

include w hs hW hm

omit [Zero V] hs hW hm in
/-- The locked predecessor leads to the victim. -/
theorem Victim.next {h : ℕ} (hv : Victim S s k n h i) (hi : i < h) (hp : Lnk i s pred)
    (hlt : s.key pred < k) (hle : k ≤ s.key (s.next pred i)) : s.next pred i = n := by
  have hsort := (w.listed i).sorted
  have hpt := w.ne_tail_of_lt hlt
  have hn : Lnk i s n := hv.lnk i le_rfl hi
  refine hsort.inj (hp.next hpt) hn (le_antisymm ?_ (hv.key.trans_le hle))
  exact (hsort.le_or_next_le hp hpt hn).resolve_left (not_le.mpr (hlt.trans_eq hv.key.symm))

omit [Zero V] hs hW hm in
/-- Once it is unlinked at its last level, it is linked nowhere. -/
theorem Victim.last {h : ℕ} (hv : Victim S s k n h i) (hi : h ≤ i + 1) (hj : j ≠ i) :
    ¬ Lnk j s n := by
  intro hl
  have hin := w.inner (w.state hv.deleted)
  have hlt := (w.tall (w.pub_lnk hl) hin.1 hin.2).1
  rw [hv.top] at hlt
  rcases Nat.lt_or_gt_of_ne hj with hji | hji
  · exact hv.gone j hji hl
  · omega

theorem step_ok_unlink {level top : ℕ} {r : Ptr T} (hl : l = .removeStore a n top i r)
    (h : At levelmax shown t S W s op l) :
    StepOk levelmax shown t S (insert (step level t s op l).1 W) s op l (step level t s op l).1
      (step level t s op l).2 := by
  subst hl
  obtain ⟨⟨k, rfl⟩, hi, htop, ha, hheld, hv, rfl⟩ := h
  have hil := hi.trans_le htop
  have hspot := ha.spot i i.zero_le hil
  have hmem : a.preds i ∈ a.taken 0 top := ⟨i, i.zero_le, hi, rfl⟩
  have hlk := hm.locked _ hmem
  have hp : Lnk i s (a.preds i) := w.lnk_of_locked hlk hspot.pub
  have hnext := hv.next w hi hp hspot.lt (hheld i hil hmem)
  have hpt := w.ne_tail_of_lt hspot.lt
  have hnt := (w.inner (w.state hv.deleted)).2
  have hact : Act levelmax t S s (a.taken 0 top) {n} (a.taken 0 top)
      (if i + 1 < top then {n} else ∅) (s.setNext (a.preds i) i (s.next n i)) := by
    refine .unlink hmem hlk hp hnext hv.deleted rfl hpt hnt ?_
    split_ifs with hlast
    · exact Or.inl rfl
    · exact Or.inr ⟨rfl, fun j => hv.last w (not_lt.mp hlast)⟩
  have hlnk := (setNext_swing s (a.preds i) i (s.next n i)).unlink_lnk w.listed hp hpt hnext hnt
  refine ⟨hact, ⟨⟨k, rfl⟩, hi, htop, ha.step w (hact.keeps w), fun j hj hjm => ?_, ?_⟩,
    Or.inl ⟨?_, ?_⟩⟩
  · show k ≤ (s.setNext (a.preds i) i (s.next n i)).key _
    simp only [step]
    by_cases hji : a.preds j = a.preds i ∧ j = i
    · rw [hji.1, hji.2, next_setNext_self, key_setNext]
      exact hv.key.ge.trans (w.up (w.pub_lnk (hv.lnk i le_rfl hi)) hnt).2.le
    · rw [next_setNext_of_ne s _ _ _ i j (not_and_or.mp hji), key_setNext]
      exact hheld j hj hjm
  · refine ⟨hv.pub.insert _, (key_setNext ..).trans hv.key, (lock_setNext ..).trans hv.deleted,
      (toplevel_setNext ..).trans hv.top, hv.pos, fun j hij hj => (hlnk j n).mpr ⟨?_, ?_⟩,
      fun j hj hl => ?_⟩
    · exact hv.lnk j (Nat.le_of_succ_le hij) hj
    · rintro ⟨rfl, -⟩
      exact Nat.not_succ_le_self _ hij
    · obtain ⟨h1, h2⟩ := (hlnk j n).mp hl
      rcases Nat.lt_succ_iff_lt_or_eq.mp hj with hj | rfl
      · exact hv.gone j hj h1
      · exact h2 ⟨rfl, rfl⟩
  · simp only [step, lin, val_setNext]
  · exact hact.absMap_eq w (fun y _ => state_setNext ..) fun y hy => (lock_setNext ..).symm.trans hy

theorem step_ok_remove {level : ℕ} (h : At levelmax shown t S W s op l)
    (hlc : (∃ a n top i, l = .removeNext a n top i) ∨
      (∃ a n top i r, l = .removeStore a n top i r) ∨ (∃ n, l = .removeFree n) ∨
      ∃ n, l = .removeVal n) :
    StepOk levelmax shown t S (insert (step level t s op l).1 W) s op l (step level t s op l).1
      (step level t s op l).2 := by
  rcases hlc with ⟨a, n, top, i, rfl⟩ | ⟨a, n, top, i, r, rfl⟩ | ⟨n, rfl⟩ | ⟨n, rfl⟩
  · obtain ⟨h1, h2, h3, h4, h5, h6⟩ := h
    by_cases hi : i < top
    · simp only [step, hi, if_true]
      exact .read w hs rfl (if_pos hi).symm ⟨h1, hi, h3, h4, h5, h6, rfl⟩ rfl
    · simp only [step, hi, if_false]
      exact .read w hs (Set.sdiff_singleton_eq_self (null_not_taken w h4 h3)) (if_neg hi).symm
        ⟨h4, h3, Or.inl rfl, h6.pub⟩ rfl
  · exact step_ok_unlink w hs hW hm rfl h
  · have hact : Act levelmax t S s ∅ ∅ ∅ ∅ (s.ssmemFree n) := .free n
    exact ⟨hact, Met.insert h _, Or.inl ⟨rfl, rfl⟩⟩
  · exact .read w hs rfl rfl trivial rfl

end remove

end SkiplistOptik

end Ascylib
