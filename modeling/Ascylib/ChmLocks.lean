/-
# The locks of the segments

What a call does to the locks, the array of segments and the memory of segments
is seen in its phase (`Phase`, `step_lock`). In a build whose `TRYLOCK` is lawful
a thread that leaves the loop has the lock of the segment that is installed, and
no other thread is there (`lawful_inv`). A mutex says 0 when it was acquired, so
the loop goes on with the lock and ends at the next attempt; if another thread
holds the mutex it ends without. So the mutex build is right only as long as no
attempt meets another's mutex (`mutex_inv`).

Key definitions: `Phase`, `Exclusive`, `Uncontended`.
Key theorem: `chm_trylock`.
-/
import Ascylib.HashtableJava

set_option linter.unusedSectionVars false

namespace Ascylib

open Concur

namespace HashtableJava

variable {T K V Λ A : Type*} [DecidableEq T] [DecidableEq K] [Zero V]

/-- Where a call is, as far as the locks are concerned. -/
inductive Phase (T A : Type*) where
  /-- before the loop -/
  | walking
  /-- in the loop, before `seg = chm->segments[seg_num]` -/
  | looping
  /-- in `TRYLOCK_A` -/
  | trying (seg : SegPtr T) (a : A)
  /-- behind the loop -/
  | inside (seg : SegPtr T)
  /-- behind the loop, with a new segment -/
  | building (seg segNew : SegPtr T)
  /-- the new segment is installed -/
  | left (seg : SegPtr T)
  /-- behind `UNLOCK_A`, or without an update -/
  | leaving

def phase : Pc T V A → Phase T A
  | .walkSeg _ | .walkBucket _ _ | .walkKey _ _ | .walkNext _ _ | .walkVal _ => .walking
  | .lockSeg => .looping
  | .tryLock seg a => .trying seg a
  | .bucket seg | .testKey seg _ _ | .loadNext seg _ | .unlockFound seg | .alloc seg _
  | .loadSize seg _ _ | .link seg _ _ _ | .setSize seg _ | .unlockInsert seg | .unlockMissing seg
  | .unlinkNext seg _ _ | .unlink seg _ _ _ | .free seg _ | .loadSizeRemove seg _
  | .setSizeRemove seg _ _ | .unlockRemove seg _ | .reOld seg _ | .reAlloc seg _ => .inside seg
  | .reBucket r _ | .reFirst r _ _ | .reOnly r _ _ _ | .reLast r _ _ _ _ _ | .reLastNext r _ _ _ _ _
  | .reRun r _ _ _ _ | .reCopy r _ _ _ | .reStore r _ _ _ _ _ | .reFree r _ _ _ | .reNext r _ _ _
  | .reNew r | .reNewNext r _ | .reNewStore r | .reSize r | .reSetSize r _ | .rePublish r =>
    .building r.segOld r.segNew
  | .reRelease seg | .reReleaseTable seg => .left seg
  | .removeVal _ | .done _ | .unchanged _ => .leaving

/-- The segment whose `TRYLOCK_A` loop the call has left, before it gave the
lock back. -/
def Phase.held : Phase T A → Option (SegPtr T)
  | .inside seg | .building seg _ | .left seg => some seg
  | _ => none

/-- The locks, the array and the memory of segments are as before. -/
structure SameLocks (s s' : Chm T K V Λ) : Prop where
  lock : s'.lock = s.lock
  segments : s'.segments = s.segments
  count : s'.segs.count = s.segs.count

/-- What a step does to the locks. -/
inductive LockStep (C : ChmConfig K) (O : TryLockOps T Λ A) (me : T) (s : Chm T K V Λ) (n : ℕ) :
    Phase T A → Chm T K V Λ → Phase T A → Prop
  | same {p s'} : SameLocks s s' → (∀ g a, p ≠ .trying g a) → p ≠ .looping → LockStep C O me s n p s' p
  | enter : LockStep C O me s n .walking s .looping
  | answer : LockStep C O me s n .walking s .leaving
  | load : LockStep C O me s n .looping s (.trying (s.segments n) O.first)
  | again {g a w a'} : O.step me (s.lock g) a = (w, .inl a') →
      LockStep C O me s n (.trying g a) (s.setLock g w) (.trying g a')
  | fail {g a w} : O.step me (s.lock g) a = (w, .inr 0) →
      LockStep C O me s n (.trying g a) (s.setLock g w) .looping
  | take {g a w v} : O.step me (s.lock g) a = (w, .inr v) → v ≠ 0 →
      LockStep C O me s n (.trying g a) (s.setLock g w) (.inside g)
  | unlock {g} : LockStep C O me s n (.inside g) (s.setLock g (O.unlock me (s.lock g))) .leaving
  | reload {g} : LockStep C O me s n (.inside g) s (.inside (s.segments n))
  | alloc {g capacity loadFactor} : LockStep C O me s n (.inside g)
      (s.allocateSegment O.init me capacity loadFactor).1
      (.building g (s.allocateSegment O.init me capacity loadFactor).2)
  | publish {g segNew} : LockStep C O me s n (.building g segNew)
      { s with segments := Function.update s.segments n segNew } (.left g)
  | leave {g s'} : SameLocks s s' → LockStep C O me s n (.left g) s' .leaving

section same

variable (s : Chm T K V Λ)

theorem SameLocks.rfl : SameLocks s s := ⟨Eq.refl _, Eq.refl _, Eq.refl _⟩

theorem SameLocks.modifySeg (g : SegPtr T) {f : ConcHashmapSegment T Λ → ConcHashmapSegment T Λ}
    (hf : ∀ x, (f x).lock = x.lock) : SameLocks s (s.modifySeg g f) := by
  refine ⟨funext fun h => ?_, Eq.refl _, Eq.refl _⟩
  exact s.segs.field_modify g h ConcHashmapSegment.lock hf

theorem SameLocks.setLink (g : SegPtr T) (i : ℕ) (pred q : Ptr T) :
    SameLocks s (s.setLink g i pred q) := by
  unfold Chm.setLink
  split_ifs
  · exact ⟨Eq.refl _, Eq.refl _, Eq.refl _⟩
  · exact .modifySeg s g fun _ => Eq.refl _

theorem lock_setLock_self (g : SegPtr T) (w : Λ) : (s.setLock g w).lock g = w :=
  congrArg ConcHashmapSegment.lock (s.segs.mem_modify_self g fun n => { n with lock := w })

theorem lock_setLock_of_ne {g h : SegPtr T} (w : Λ) (hne : h ≠ g) :
    (s.setLock g w).lock h = s.lock h :=
  congrArg ConcHashmapSegment.lock (s.segs.mem_modify_of_ne g h (fun n => { n with lock := w }) hne)

end same

section phases

variable (C : ChmConfig K) (O : TryLockOps T Λ A) (me : T) (s : Chm T K V Λ) (n : ℕ) (op : Call K V)

theorem LockStep.walk {l : Pc T V A} (h : phase l = .walking ∨ phase l = .looping ∨ phase l = .leaving) :
    LockStep C O me s n .walking s (phase l) := by
  rcases h with h | h | h <;> rw [h]
  · exact .same (.rfl s) nofun nofun
  · exact .enter
  · exact .answer

theorem LockStep.inside {s' : Chm T K V Λ} {g : SegPtr T} {p : Phase T A} (h : SameLocks s s')
    (hp : p = .inside g) : LockStep C O me s n (.inside g) s' p := by
  rw [hp]
  exact .same h nofun nofun

theorem LockStep.building {s' : Chm T K V Λ} {r : Re T} {p : Phase T A} (h : SameLocks s s')
    (hp : p = .building r.segOld r.segNew) :
    LockStep C O me s n (.building r.segOld r.segNew) s' p := by
  rw [hp]
  exact .same h nofun nofun

theorem phase_walkMissed (w : Walk) : phase (walkMissed w op : Pc T V A) = .walking ∨
    phase (walkMissed w op : Pc T V A) = .looping ∨ phase (walkMissed w op : Pc T V A) = .leaving := by
  cases w <;> cases op <;> simp [walkMissed, phase]

theorem phase_walkTo (w : Walk) (curr : Ptr T) : phase (walkTo op w curr : Pc T V A) = .walking ∨
    phase (walkTo op w curr : Pc T V A) = .looping ∨
    phase (walkTo op w curr : Pc T V A) = .leaving := by
  unfold walkTo
  split_ifs
  · exact Or.inl rfl
  · exact phase_walkMissed op w

theorem phase_walkFound (w : Walk) (curr : Ptr T) : phase (walkFound curr w op : Pc T V A) = .walking ∨
    phase (walkFound curr w op : Pc T V A) = .looping ∨
    phase (walkFound curr w op : Pc T V A) = .leaving := by
  cases w <;> cases op <;> simp [walkFound, phase]

theorem phase_scanTo (seg : SegPtr T) (pred curr : Ptr T) :
    phase (scanTo op seg pred curr : Pc T V A) = .inside seg := by
  unfold scanTo
  split_ifs
  · rfl
  · cases op <;> rfl

theorem phase_start : phase (start C op : Pc T V A) = .walking ∨
    phase (start C op : Pc T V A) = .looping := by
  cases op with
  | search k => exact Or.inl rfl
  | insert k v | remove k =>
    unfold start
    split_ifs
    · exact Or.inl rfl
    · exact Or.inr rfl

theorem phase_copyTo (r : Re T) (b : ℕ) (p lastRun : Ptr T) :
    phase (copyTo r b p lastRun : Pc T V A) = .building r.segOld r.segNew := by
  unfold copyTo
  split_ifs <;> rfl

end phases

theorem phase_trying {l : Pc T V A} {g : SegPtr T} {a : A} (h : phase l = .trying g a) :
    l = .tryLock g a := by
  cases l <;> cases h
  rfl

theorem phase_of_result {l : Pc T V A} {r : Answer V} (h : result l = some r) : phase l = .leaving := by
  cases l <;> cases h <;> rfl

/-- **What every step does to the locks.** -/
theorem step_lock (C : ChmConfig K) (O : TryLockOps T Λ A) (me : T) (s : Chm T K V Λ) (op : Call K V)
    (l : Pc T V A) : LockStep C O me s (C.segNum op.key) (phase l) (step C O me s op l).1
      (phase (step C O me s op l).2) := by
  have table : ∀ g i q, SameLocks s (s.setTable g i q) := fun g _ _ => .modifySeg s g fun _ => Eq.refl _
  have size : ∀ g n, SameLocks s (s.setSize g n) := fun g _ => .modifySeg s g fun _ => Eq.refl _
  have memory : ∀ m : Memory T (ChmNode T K V), SameLocks s { s with memory := m } :=
    fun _ => ⟨Eq.refl _, Eq.refl _, Eq.refl _⟩
  cases l with
  | walkSeg w => exact .same (.rfl s) nofun nofun
  | walkBucket w seg => exact .walk C O me s _ (phase_walkTo op w _)
  | walkKey w curr =>
    simp only [step]
    split_ifs
    · exact .walk C O me s _ (phase_walkFound op w curr)
    · exact .same (.rfl s) nofun nofun
  | walkNext w curr => exact .walk C O me s _ (phase_walkTo op w _)
  | walkVal curr => exact .answer
  | lockSeg => exact .load
  | tryLock seg a =>
    rcases hO : O.step me (s.lock seg) a with ⟨w, a' | v⟩
    · simp only [step, hO]
      exact .again hO
    · simp only [step, hO]
      by_cases hv : v = 0
      · subst hv
        exact .fail hO
      · rw [if_pos hv]
        exact .take hO hv
  | bucket seg => exact .inside C O me s _ (.rfl s) (phase_scanTo op seg _ _)
  | testKey seg pred curr =>
    refine .inside C O me s _ (.rfl s) ?_
    simp only [step]
    split_ifs
    · cases op <;> rfl
    · rfl
  | loadNext seg curr => exact .inside C O me s _ (.rfl s) (phase_scanTo op seg _ _)
  | unlockFound seg => exact .unlock
  | alloc seg pred =>
    cases op with
    | insert k v => exact .inside C O me s _ (memory _) rfl
    | search k => exact .inside C O me s _ (.rfl s) rfl
    | remove k => exact .inside C O me s _ (.rfl s) rfl
  | loadSize seg pred n =>
    refine .inside C O me s _ (.rfl s) ?_
    simp only [step]
    split_ifs <;> rfl
  | link seg pred n sizepp => exact .inside C O me s _ (.setLink s ..) rfl
  | setSize seg sizepp => exact .inside C O me s _ (size ..) rfl
  | unlockInsert seg => exact .unlock
  | unlockMissing seg => exact .unlock
  | unlinkNext seg pred curr => exact .inside C O me s _ (.rfl s) rfl
  | unlink seg pred curr next => exact .inside C O me s _ (.setLink s ..) rfl
  | free seg curr => exact .inside C O me s _ (memory _) rfl
  | loadSizeRemove seg curr => exact .inside C O me s _ (.rfl s) rfl
  | setSizeRemove seg curr n => exact .inside C O me s _ (size ..) rfl
  | unlockRemove seg curr => exact .unlock
  | removeVal curr => exact .same (.rfl s) nofun nofun
  | reOld seg newNode => exact .reload
  | reAlloc segOld newNode => exact .alloc
  | reBucket r b =>
    refine .building C O me s _ (.rfl s) ?_
    simp only [step]
    split_ifs <;> rfl
  | reFirst r b curr =>
    refine .building C O me s _ (.rfl s) ?_
    simp only [step]
    split_ifs <;> rfl
  | reOnly r b curr idx => exact .building C O me s _ (table ..) rfl
  | reLast r b curr lastRun lastIdx last =>
    refine .building C O me s _ (.rfl s) ?_
    simp only [step]
    split_ifs <;> rfl
  | reLastNext r b curr lastRun lastIdx last =>
    refine .building C O me s _ (.rfl s) ?_
    simp only [step]
    split_ifs <;> rfl
  | reRun r b curr lastRun lastIdx => exact .building C O me s _ (table ..) (phase_copyTo r b _ _)
  | reCopy r b p lastRun => exact .building C O me s _ (memory _) rfl
  | reStore r b p lastRun k n => exact .building C O me s _ (table ..) rfl
  | reFree r b p lastRun => exact .building C O me s _ (memory _) rfl
  | reNext r b p lastRun => exact .building C O me s _ (.rfl s) (phase_copyTo r b _ _)
  | reNew r => exact .building C O me s _ (.rfl s) rfl
  | reNewNext r next => exact .building C O me s _ (memory _) rfl
  | reNewStore r => exact .building C O me s _ (table ..) rfl
  | reSize r => exact .building C O me s _ (.rfl s) rfl
  | reSetSize r n => exact .building C O me s _ (size ..) rfl
  | rePublish r => exact .publish
  | reRelease segOld => exact .same ⟨rfl, rfl, rfl⟩ nofun nofun
  | reReleaseTable segOld => exact .leave ⟨rfl, rfl, rfl⟩
  | done r => exact .same (.rfl s) nofun nofun
  | unchanged r => exact .same (.rfl s) nofun nofun

theorem lock_step {C : ChmConfig K} {O : TryLockOps T Λ A} {node : ChmNode T K V} {i : Unit} {t : T}
    {s s' : Chm T K V Λ} {op : Call K V} {l l' : Pc T V A}
    (h : (program C O node).step i t s op l = some (s', l')) :
    LockStep C O t s (C.segNum op.key) (phase l) s' (phase l') := by
  have hs : step C O t s op l = (s', l') := Option.some.inj h
  have hst := step_lock C O t s op l
  rw [hs] at hst
  exact hst

/-! ### The segments -/

section segments

variable (C : ChmConfig K) (O : TryLockOps T Λ A)

/-- The segment was installed at some moment. -/
def Known (S : Set (Chm T K V Λ)) (g : SegPtr T) : Prop :=
  ∃ s₀ ∈ S, ∃ m < C.numSegments, s₀.segments m = g

/-- The segment is not installed. -/
def Stale (s : Chm T K V Λ) (g : SegPtr T) : Prop := ∀ m < C.numSegments, s.segments m ≠ g

/-- A segment of thread `t` that was never installed. -/
def Fresh (S : Set (Chm T K V Λ)) (t : T) (s : Chm T K V Λ) (g : SegPtr T) : Prop :=
  (∃ i, g = .node (some t) i ∧ i < s.segs.count (some t)) ∧ ¬ Known C S g

/-- The array of segments has no duplicates, and nobody has tried for the lock of
a segment that was never installed. -/
structure SegOk (S : Set (Chm T K V Λ)) (s : Chm T K V Λ) : Prop where
  mem : s ∈ S
  inj : ∀ m < C.numSegments, ∀ m' < C.numSegments, s.segments m = s.segments m' → m = m'
  known : ∀ g, Known C S g → s.segs.Allocated g
  untouched : ∀ g, ¬ Known C S g → s.lock g = O.init

/-- A step that changes no lock and installs nothing. -/
structure Quiet (s s' : Chm T K V Λ) : Prop where
  lock : s'.lock = s.lock
  segments : s'.segments = s.segments
  count : ∀ u, s.segs.count u ≤ s'.segs.count u

variable {C O} {S : Set (Chm T K V Λ)} {s s' : Chm T K V Λ} {t u : T} {g x : SegPtr T} {w : Λ} {n : ℕ}

theorem SameLocks.quiet (h : SameLocks s s') : Quiet s s' :=
  ⟨h.lock, h.segments, fun u => by rw [h.count]⟩

theorem Quiet.rfl (s : Chm T K V Λ) : Quiet s s := ⟨Eq.refl _, Eq.refl _, fun _ => le_refl _⟩

theorem Quiet.setLock (s : Chm T K V Λ) (g : SegPtr T) (hw : w = s.lock g) : Quiet s (s.setLock g w) := by
  refine ⟨funext fun x => ?_, Eq.refl _, fun _ => le_refl _⟩
  by_cases hx : x = g
  · subst hx
    rw [lock_setLock_self, hw]
  · exact lock_setLock_of_ne s w hx

theorem Known.mono {S' : Set (Chm T K V Λ)} (h : Known C S g) (hS : S ⊆ S') : Known C S' g := by
  obtain ⟨s₀, h0, hm⟩ := h
  exact ⟨s₀, hS h0, hm⟩

theorem Known.insert (h : Known C S g) (s' : Chm T K V Λ) : Known C (insert s' S) g :=
  h.mono (Set.subset_insert _ _)

/-- `chm->segments[n]` becomes `g`. -/
abbrev publishAt (s : Chm T K V Λ) (n : ℕ) (g : SegPtr T) : Chm T K V Λ :=
  { s with segments := Function.update s.segments n g }

theorem segments_publish_self : (publishAt s n g).segments n = g := Function.update_self ..

theorem segments_publish_of_ne {m : ℕ} (hm : m ≠ n) : (publishAt s n g).segments m = s.segments m :=
  Function.update_of_ne hm ..

theorem SegOk.initial (node : ChmNode T K V) :
    SegOk C O {Chm.initial C O.init node} (Chm.initial C O.init node) where
  mem := Eq.refl _
  inj m _ m' _ he := by
    cases he
    rfl
  known := by
    rintro g ⟨s₀, rfl, m, hm, rfl⟩
    exact Or.inr (Or.inr ⟨none, m, Eq.refl _, hm⟩)
  untouched _ _ := Eq.refl _

namespace SegOk

variable (h : SegOk C O S s)

include h

theorem known_segments (hn : n < C.numSegments) : Known C S (s.segments n) := ⟨s, h.mem, n, hn, rfl⟩

theorem not_known_next (t : T) : ¬ Known C S (.node (some t) (s.segs.count (some t))) :=
  fun hk => s.segs.not_allocated_next (some t) (h.known _ hk)

theorem known_insert (hs : s'.segments = s.segments) : Known C (insert s' S) g ↔ Known C S g := by
  constructor
  · rintro ⟨s₀, rfl | h0, m, hm, hg⟩
    · exact ⟨s, h.mem, m, hm, hs ▸ hg⟩
    · exact ⟨s₀, h0, m, hm, hg⟩
  · exact fun hg => hg.insert s'

theorem quiet_allocate (t : T) (capacity loadFactor : ℕ) :
    Quiet s (s.allocateSegment O.init t capacity loadFactor).1 := by
  refine ⟨funext fun x => ?_, Eq.refl _, fun u => s.segs.count_le_allocate _ (some t) u⟩
  by_cases hx : x = .node (some t) (s.segs.count (some t))
  · subst hx
    have hm := s.segs.mem_allocate_self (newSegment O.init capacity loadFactor) (some t)
    exact (congrArg ConcHashmapSegment.lock hm).trans (h.untouched _ (h.not_known_next t)).symm
  · exact congrArg ConcHashmapSegment.lock (s.segs.mem_allocate_of_ne x _ (some t) hx)

theorem fresh_allocate (t : T) (capacity loadFactor : ℕ) :
    Fresh C (insert (s.allocateSegment O.init t capacity loadFactor).1 S) t
      (s.allocateSegment O.init t capacity loadFactor).1
      (s.allocateSegment O.init t capacity loadFactor).2 := by
  refine ⟨⟨_, rfl, s.segs.count_allocate_self _ (some t)⟩, fun hk => ?_⟩
  exact h.not_known_next t ((h.known_insert (h.quiet_allocate t capacity loadFactor).segments).mp hk)

theorem quiet (hq : Quiet s s') : SegOk C O (insert s' S) s' where
  mem := Set.mem_insert _ _
  inj := by
    rw [hq.segments]
    exact h.inj
  known g hg := (h.known g ((h.known_insert hq.segments).mp hg)).mono hq.count
  untouched g hg := by
    rw [hq.lock]
    exact h.untouched g fun hk => hg (hk.insert s')

theorem setLock (hg : Known C S g) : SegOk C O (insert (s.setLock g w) S) (s.setLock g w) where
  mem := Set.mem_insert _ _
  inj := h.inj
  known x hx := by
    have hs : (s.setLock g w).segments = s.segments := rfl
    exact h.known x ((h.known_insert hs).mp hx)
  untouched x hx := by
    have hne : x ≠ g := by
      rintro rfl
      exact hx (hg.insert _)
    rw [lock_setLock_of_ne s w hne]
    exact h.untouched x fun hk => hx (hk.insert _)

theorem known_publish (hx : Known C (insert (publishAt s n g) S) x) : Known C S x ∨ x = g := by
  obtain ⟨s₀, rfl | h0, m, hm, rfl⟩ := hx
  · by_cases hmn : m = n
    · subst hmn
      exact Or.inr (Function.update_self ..)
    · exact Or.inl ⟨s, h.mem, m, hm, (Function.update_of_ne hmn _ _).symm⟩
  · exact Or.inl ⟨s₀, h0, m, hm, rfl⟩

theorem ne_of_fresh (hf : Fresh C S t s g) {m : ℕ} (hm : m < C.numSegments) : s.segments m ≠ g :=
  fun he => hf.2 (he ▸ h.known_segments hm)

theorem publish (hf : Fresh C S t s g) : SegOk C O (insert (publishAt s n g) S) (publishAt s n g) where
  mem := Set.mem_insert _ _
  inj := by
    intro m hm m' hm' he
    simp only [Function.update_apply] at he
    split_ifs at he with h1 h2 h2
    · exact h1.trans h2.symm
    · exact absurd he.symm (h.ne_of_fresh hf hm')
    · exact absurd he (h.ne_of_fresh hf hm)
    · exact h.inj m hm m' hm' he
  known x hx := by
    rcases h.known_publish hx with hx | rfl
    · exact h.known x hx
    · obtain ⟨⟨i, rfl, hi⟩, -⟩ := hf
      exact Or.inr (Or.inr ⟨some t, i, rfl, hi⟩)
  untouched x hx := h.untouched x fun hk => hx (hk.insert _)

/-- The segment that was installed is not, behind a new one. -/
theorem stale_publish (hf : Fresh C S t s g) (hn : n < C.numSegments) :
    Stale C (publishAt s n g) (s.segments n) := by
  intro m hm he
  by_cases hmn : m = n
  · subst hmn
    rw [segments_publish_self] at he
    exact h.ne_of_fresh hf hm he.symm
  · rw [segments_publish_of_ne hmn] at he
    exact hmn (h.inj m hm n hn he)

end SegOk

theorem Stale.publish (hx : Stale C s x) (hk : Known C S x) (hf : Fresh C S t s g) :
    Stale C (publishAt s n g) x := by
  intro m hm he
  by_cases hmn : m = n
  · subst hmn
    rw [segments_publish_self] at he
    exact hf.2 (he ▸ hk)
  · rw [segments_publish_of_ne hmn] at he
    exact hx m hm he

theorem Stale.congr (hx : Stale C s x) (hs : s'.segments = s.segments) : Stale C s' x := by
  intro m hm
  rw [hs]
  exact hx m hm

theorem Fresh.congr (hf : Fresh C S t s g) (h : SegOk C O S s) (hs : s'.segments = s.segments)
    (hc : ∀ u, s.segs.count u ≤ s'.segs.count u) : Fresh C (insert s' S) t s' g := by
  obtain ⟨⟨i, rfl, hi⟩, hn⟩ := hf
  exact ⟨⟨i, rfl, hi.trans_le (hc _)⟩, fun hk => hn ((h.known_insert hs).mp hk)⟩

theorem Fresh.publish (hf : Fresh C S t s g) (h : SegOk C O S s) (hx : Fresh C S u s x) (htu : t ≠ u) :
    Fresh C (insert (publishAt s n x) S) t (publishAt s n x) g := by
  obtain ⟨⟨i, rfl, hi⟩, hn⟩ := hf
  refine ⟨⟨i, rfl, hi⟩, fun hk => ?_⟩
  rcases h.known_publish hk with hk | hk
  · exact hn hk
  · obtain ⟨⟨j, rfl, -⟩, -⟩ := hx
    cases hk
    exact htu rfl

end segments

/-! ### Lawful attempts -/

section lawful

variable {C : ChmConfig K} {O : TryLockOps T Λ A} (Free Held : Λ → Prop) (At : A → Prop)

/-- Where a call stands that uses the lock of the segment `s.segments n`. -/
def Seat (C : ChmConfig K) (S : Set (Chm T K V Λ)) (t : T) (s : Chm T K V Λ) (n : ℕ) :
    Phase T A → Prop
  | .trying g a => At a ∧ Known C S g ∧ (g = s.segments n ∨ Stale C s g ∧ Held (s.lock g))
  | .inside g => g = s.segments n ∧ Held (s.lock g)
  | .building g x => g = s.segments n ∧ Held (s.lock g) ∧ Fresh C S t s x
  | .left g => Known C S g ∧ Stale C s g ∧ Held (s.lock g)
  | _ => True

/-- Two calls are not behind the loops of one lock. -/
def Phase.Apart (p q : Phase T A) : Prop := ∀ g, p.held = some g → q.held ≠ some g

variable {Free Held At} {S : Set (Chm T K V Λ)} {s s' : Chm T K V Λ} {t u : T} {g x : SegPtr T} {w : Λ}
  {n m : ℕ} {p p' q : Phase T A}

theorem Seat.quiet (hq : Seat Held At C S u s m q) (h : SegOk C O S s) (hs : Quiet s s') :
    Seat Held At C (insert s' S) u s' m q := by
  cases q with
  | trying x a =>
    obtain ⟨h1, h2, h3⟩ := hq
    refine ⟨h1, h2.insert s', ?_⟩
    rw [hs.segments, hs.lock]
    exact h3.imp_right fun h4 => ⟨h4.1.congr hs.segments, h4.2⟩
  | inside x =>
    rw [Seat, hs.segments, hs.lock]
    exact hq
  | building x y =>
    rw [Seat, hs.segments, hs.lock]
    exact ⟨hq.1, hq.2.1, hq.2.2.congr h hs.segments hs.count⟩
  | left x =>
    rw [Seat, hs.lock]
    exact ⟨hq.1.insert s', hq.2.1.congr hs.segments, hq.2.2⟩
  | walking | looping | leaving => trivial

/-- A lock changes that no other call needs. -/
theorem Seat.setLock (hq : Seat Held At C S u s m q) (h : SegOk C O S s)
    (hheld : q.held ≠ some g) (hstale : ∀ a, q = .trying g a → g = s.segments m) :
    Seat Held At C (insert (s.setLock g w) S) u (s.setLock g w) m q := by
  have hlock : ∀ {x}, q.held = some x → (s.setLock g w).lock x = s.lock x := by
    intro x hx
    refine lock_setLock_of_ne s w ?_
    rintro rfl
    exact hheld hx
  cases q with
  | trying x a =>
    obtain ⟨h1, h2, h3⟩ := hq
    refine ⟨h1, h2.insert _, ?_⟩
    by_cases hx : x = g
    · subst hx
      exact Or.inl (hstale a rfl)
    · rw [lock_setLock_of_ne s w hx]
      exact h3
  | inside x => exact ⟨hq.1, by rw [hlock rfl]; exact hq.2⟩
  | building x y =>
    exact ⟨hq.1, by rw [hlock rfl]; exact hq.2.1, hq.2.2.congr h rfl fun _ => le_refl _⟩
  | left x => exact ⟨hq.1.insert _, hq.2.1, by rw [hlock rfl]; exact hq.2.2⟩
  | walking | looping | leaving => trivial

theorem Seat.publish (hq : Seat Held At C S u s m q) (h : SegOk C O S s) (hut : u ≠ t)
    (hf : Fresh C S t s x) (hn : n < C.numSegments) (hheld : Held (s.lock (s.segments n)))
    (ha : q.held ≠ some (s.segments n)) :
    Seat Held At C (insert (publishAt s n x) S) u (publishAt s n x) m q := by
  have hseg : ∀ {y}, q.held = some y → y = s.segments m → y = (publishAt s n x).segments m := by
    rintro y hy rfl
    rw [segments_publish_of_ne]
    rintro rfl
    exact ha hy
  cases q with
  | trying y a =>
    obtain ⟨h1, h2, h3⟩ := hq
    refine ⟨h1, h2.insert _, ?_⟩
    rcases h3 with rfl | ⟨h3, h4⟩
    · by_cases hmn : m = n
      · subst hmn
        exact Or.inr ⟨h.stale_publish hf hn, hheld⟩
      · exact Or.inl (segments_publish_of_ne hmn).symm
    · exact Or.inr ⟨h3.publish h2 hf, h4⟩
  | inside y => exact ⟨hseg rfl hq.1, hq.2⟩
  | building y z => exact ⟨hseg rfl hq.1, hq.2.1, hq.2.2.publish h hf hut⟩
  | left y => exact ⟨hq.1.insert _, hq.2.1.publish hq.1 hf, hq.2.2⟩
  | walking | looping | leaving => trivial

theorem Seat.held (hq : Seat Held At C S u s m q) (hg : q.held = some g) : Held (s.lock g) := by
  cases q with
  | inside y =>
    cases hg
    exact hq.2
  | building y z =>
    cases hg
    exact hq.2.1
  | left y =>
    cases hg
    exact hq.2.2
  | walking | looping | leaving | trying => cases hg

/-- **What a step of one call does to the seats of all.** -/
theorem LockStep.seat (hO : O.Lawful Free Held At) (h : SegOk C O S s) (hn : n < C.numSegments)
    (st : LockStep C O t s n p s' p') (my : Seat Held At C S t s n p) :
    SegOk C O (insert s' S) s' ∧ Seat Held At C (insert s' S) t s' n p' ∧
    ∀ u m q, u ≠ t → Seat Held At C S u s m q → p.Apart q →
      Seat Held At C (insert s' S) u s' m q ∧ p'.Apart q := by
  -- a step that changes no lock
  have calm : Quiet s s' → (p'.held = p.held ∨ p'.held = none) →
      Seat Held At C (insert s' S) t s' n p' →
      SegOk C O (insert s' S) s' ∧ Seat Held At C (insert s' S) t s' n p' ∧
      ∀ u m q, u ≠ t → Seat Held At C S u s m q → p.Apart q →
        Seat Held At C (insert s' S) u s' m q ∧ p'.Apart q := by
    intro hs hh hseat
    refine ⟨h.quiet hs, hseat, fun u m q _ hq ha => ⟨hq.quiet h hs, fun g hg => ?_⟩⟩
    rcases hh with hh | hh
    · exact ha g (hh ▸ hg)
    · rw [hh] at hg
      cases hg
  cases st with
  | same hs _ _ => exact calm hs.quiet (Or.inl rfl) (my.quiet h hs.quiet)
  | enter => exact calm (.rfl s) (Or.inr rfl) trivial
  | answer => exact calm (.rfl s) (Or.inr rfl) trivial
  | load =>
    exact calm (.rfl s) (Or.inr rfl) ⟨hO.first, (h.known_segments hn).insert s, Or.inl rfl⟩
  | @again g a w a' hstep =>
    obtain ⟨hw, ha'⟩ := hO.again my.1 hstep
    have hs : Quiet s (s.setLock g w) := .setLock s g hw
    have hseat := Seat.quiet my h hs
    exact calm hs (Or.inl rfl) ⟨ha', hseat.2⟩
  | fail hstep => exact calm (.setLock s _ (hO.fail my.1 hstep)) (Or.inr rfl) trivial
  | @take g a w v hstep hv =>
    obtain ⟨hfree, hheld⟩ := hO.take my.1 hstep hv
    have hg : g = s.segments n := my.2.2.resolve_right fun h4 => hO.apart hfree h4.2
    have hne : ∀ u m q, Seat Held At C S u s m q → q.held ≠ some g :=
      fun u m q hq hqg => hO.apart hfree (hq.held hqg)
    refine ⟨h.setLock my.2.1, ⟨hg, ?_⟩, fun u m q _ hq _ => ⟨hq.setLock h (hne u m q hq) ?_, ?_⟩⟩
    · rw [lock_setLock_self]
      exact hheld
    · rintro b rfl
      exact hq.2.2.resolve_right fun h4 => hO.apart hfree h4.2
    · intro x hx hqx
      cases hx
      exact hne u m q hq hqx
  | @unlock g =>
    have hk : Known C S g := my.1 ▸ h.known_segments hn
    refine ⟨h.setLock hk, trivial, fun u m q _ hq ha => ⟨hq.setLock h (ha g rfl) ?_, nofun⟩⟩
    rintro b rfl
    exact hq.2.2.resolve_right fun h4 => h4.1 n hn my.1.symm
  | @reload g =>
    have hseat := Seat.quiet my h (.rfl s)
    exact calm (.rfl s) (Or.inl (by rw [my.1])) (by rw [my.1] at hseat; exact hseat)
  | @alloc g capacity loadFactor =>
    have hs := h.quiet_allocate t capacity loadFactor
    have hseat := Seat.quiet my h hs
    exact calm hs (Or.inl rfl) ⟨hseat.1, hseat.2, h.fresh_allocate t capacity loadFactor⟩
  | @publish g x =>
    obtain ⟨rfl, hheld, hf⟩ := my
    refine ⟨h.publish hf, ⟨(h.known_segments hn).insert _, h.stale_publish hf hn, hheld⟩,
      fun u m q hut hq ha => ⟨hq.publish h hut hf hn hheld (ha _ rfl), fun y hy => ?_⟩⟩
    cases hy
    exact ha _ rfl
  | leave hs => exact calm hs.quiet (Or.inr rfl) trivial

/-- **The locks in every run of a build whose attempts are lawful.** -/
def lockOutline (hO : O.Lawful Free Held At) (node : ChmNode T K V)
    (ok : Trace T (Call K V) (Answer V) (Chm T K V Λ) (Pc T V A) →
      Config T (Call K V) (Chm T K V Λ) (Pc T V A) → Event T (Call K V) (Answer V) →
      Config T (Call K V) (Chm T K V Λ) (Pc T V A) → Prop) :
    Outline (program C O node) ok fun _ _ => False where
  glob es s := SegOk C O ((program C O node).seen es) s
  loc t S _ s op l := Seat Held At C S t s (C.segNum op.key) (phase l)
  pair f g := (phase f.2).Apart (phase g.2)
  pair_symm h x hx hx' := h x hx' hx
  init := .initial node
  frame {es s e th} h _ := by
    have hs : s ∈ (program C O node).seen es := h.mem
    rw [Program.seen, Set.insert_eq_of_mem hs]
    exact h
  call {es s op} t _ _ _ := by
    show Seat Held At C _ t s (C.segNum op.key) (phase (start C op))
    rcases phase_start (T := T) (V := V) (A := A) C op with h | h <;> rw [h] <;> trivial
  call_pair {op g} x hx := by
    change (phase (start C op : Pc T V A)).held = some x at hx
    rcases phase_start (T := T) (V := V) (A := A) C op with h | h <;> rw [h] at hx <;> cases hx
  tau {es c t op l i s' l'} _ _ _ hstep _ h my := by
    obtain ⟨h1, h2, h3⟩ := (lock_step hstep).seat hO h (C.segNum_lt op.key) my
    refine ⟨h1, h2, fun u op₁ l₁ hut _ hu hpair => ?_⟩
    exact h3 u (C.segNum op₁.key) (phase l₁) hut hu hpair

end lawful

/-! ### Acquired once -/

section exclusive

variable {C : ChmConfig K} {O : TryLockOps T Λ A} {node : ChmNode T K V}

/-- How often the steps of thread `t` since its last call changed the lock of
the segment `x`. -/
noncomputable abbrev taken (C : ChmConfig K) (O : TryLockOps T Λ A) (node : ChmNode T K V) (t : T)
    (es : Trace T (Call K V) (Answer V) (Chm T K V Λ) (Pc T V A)) (x : SegPtr T) : ℕ :=
  (program C O node).changes (fun s => s.lock x) t es

/-- A thread behind its loop has acquired that lock once and no other, and no
two threads are behind the loops of one lock. -/
structure Exclusive (C : ChmConfig K) (O : TryLockOps T Λ A) (node : ChmNode T K V)
    (es : Trace T (Call K V) (Answer V) (Chm T K V Λ) (Pc T V A))
    (c : Config T (Call K V) (Chm T K V Λ) (Pc T V A)) : Prop where
  once : ∀ t op l g, c.threads t = some (op, l) → (phase l).held = some g →
    ∀ x, taken C O node t es x = if x = g then 1 else 0
  alone : ∀ t u op l op₁ l₁ g, c.threads t = some (op, l) → c.threads u = some (op₁, l₁) →
    (phase l).held = some g → (phase l₁).held = some g → t = u

/-- How often a call that has come to a phase took each lock. -/
def Phase.Counted (f : SegPtr T → ℕ) : Phase T A → Prop
  | .walking | .looping | .trying _ _ => ∀ x, f x = 0
  | .inside g | .building g _ | .left g => ∀ x, f x = if x = g then 1 else 0
  | .leaving => True

theorem Phase.Counted.held {f : SegPtr T → ℕ} {p : Phase T A} {g : SegPtr T} (h : p.Counted f)
    (hg : p.held = some g) (x : SegPtr T) : f x = if x = g then 1 else 0 := by
  cases p with
  | inside y | building y z | left y =>
    cases hg
    exact h x
  | walking | looping | leaving | trying => cases hg

variable {Free Held : Λ → Prop} {At : A → Prop} {S : Set (Chm T K V Λ)} {s s' : Chm T K V Λ} {t : T}
  {n : ℕ} {p p' : Phase T A} {f f' : SegPtr T → ℕ}

open Classical in
/-- What a step of a call does to its count. -/
theorem LockStep.counted (hO : O.Lawful Free Held At) (h : SegOk C O S s)
    (st : LockStep C O t s n p s' p') (my : Seat Held At C S t s n p) (hf : p.Counted f)
    (hf' : ∀ x, f' x = f x + if s'.lock x = s.lock x then 0 else 1) : p'.Counted f' := by
  have calm : s'.lock = s.lock → f' = f := by
    intro hs
    funext x
    rw [hf', hs, if_pos rfl, Nat.add_zero]
  cases st with
  | same hs _ _ =>
    rw [calm hs.lock]
    exact hf
  | enter | load | publish =>
    rw [calm rfl]
    exact hf
  | answer | unlock | leave => trivial
  | @again g a w a' hstep =>
    rw [calm (Quiet.setLock s g (hO.again my.1 hstep).1).lock]
    exact hf
  | @fail g a w hstep =>
    rw [calm (Quiet.setLock s g (hO.fail my.1 hstep)).lock]
    exact hf
  | @take g a w v hstep hv =>
    obtain ⟨hfree, hheld⟩ := hO.take my.1 hstep hv
    intro x
    rw [hf', show f x = 0 from hf x]
    by_cases hx : x = g
    · subst hx
      have hne : (s.setLock x w).lock x ≠ s.lock x := by
        rw [lock_setLock_self]
        rintro rfl
        exact hO.apart hfree hheld
      rw [if_neg hne, if_pos rfl]
    · rw [lock_setLock_of_ne s w hx, if_pos rfl, if_neg hx]
  | reload =>
    rw [calm rfl, ← my.1]
    exact hf
  | alloc =>
    rw [calm (h.quiet_allocate t _ _).lock]
    exact hf

theorem taken_tau {es : Trace T (Call K V) (Answer V) (Chm T K V Λ) (Pc T V A)}
    {c c' : Config T (Call K V) (Chm T K V Λ) (Pc T V A)} {ok} (hr : (program C O node).RunIf ok es c)
    (x : SegPtr T) [Decidable (c'.shared.lock x = c.shared.lock x)] :
    taken C O node t ((.tau t, c') :: es) x =
      taken C O node t es x + if c'.shared.lock x = c.shared.lock x then 0 else 1 := by
  rw [taken, Program.changes_tau, hr.last_eq]
  congr 1
  by_cases hx : c'.shared.lock x = c.shared.lock x
  · rw [if_pos hx, if_pos hx]
  · rw [if_neg hx, if_neg hx]

theorem taken_of_ne {es : Trace T (Call K V) (Answer V) (Chm T K V Λ) (Pc T V A)}
    {e : Event T (Call K V) (Answer V)} (c : Config T (Call K V) (Chm T K V Λ) (Pc T V A))
    (he : e.thread ≠ t) : taken C O node t ((e, c) :: es) = taken C O node t es :=
  funext fun _ => Program.changes_of_ne c he

/-- **In a lawful build every call has taken what its phase says.** -/
theorem counted (hO : O.Lawful Free Held At) {ok es}
    {c : Config T (Call K V) (Chm T K V Λ) (Pc T V A)} (hr : (program C O node).RunIf ok es c) (t : T)
    (op : Call K V) (l : Pc T V A) (ht : c.threads t = some (op, l)) :
    (phase l).Counted (taken C O node t es) := by
  classical
  induction hr generalizing t op l with
  | init => cases ht
  | @step es c e c' hr hst hok ih =>
    have hother : e.thread ≠ t → c.threads t = some (op, l) → (phase l).Counted (taken C O node t ((e, c') :: es)) := by
      intro he h
      rw [taken_of_ne c' he]
      exact ih t op l h
    cases hst with
    | @call u op₁ hidle hpre =>
      rcases update_eq_some.mp ht with ⟨rfl, h⟩ | ⟨hut, h⟩
      · cases h
        have h0 : ∀ x, taken C O node t ((.call t op,
            ⟨c.shared, Function.update c.threads t (some (op, start C op))⟩) :: es) x = 0 :=
          fun x => Program.changes_call op _
        change (phase (start C op : Pc T V A)).Counted _
        rcases phase_start (T := T) (V := V) (A := A) C op with h | h <;> rw [h] <;> exact h0
      · exact hother (Ne.symm hut) h
    | @tau u op₁ l₁ s' l' i hu hres hstep =>
      rcases update_eq_some.mp ht with ⟨rfl, h⟩ | ⟨hut, h⟩
      · cases h
        have hold := (lockOutline hO node ok).holds hr
        exact (lock_step hstep).counted hO hold.glob (hold.loc t op l₁ hu) (ih t op l₁ hu)
          fun x => taken_tau hr x
      · exact hother (Ne.symm hut) h
    | @ret u op₁ l₁ r hu hres =>
      rcases update_eq_some.mp ht with ⟨rfl, h⟩ | ⟨hut, h⟩
      · cases h
      · exact hother (Ne.symm hut) h

/-- **A lawful build is exclusive in every run.** -/
theorem lawful_exclusive (hO : O.Lawful Free Held At) {ok es}
    {c : Config T (Call K V) (Chm T K V Λ) (Pc T V A)} (hr : (program C O node).RunIf ok es c) :
    Exclusive C O node es c where
  once t op l g ht hg := (counted hO hr t op l ht).held hg
  alone t u op l op₁ l₁ g ht hu hg hg₁ := by
    by_contra htu
    exact ((lockOutline hO node ok).holds hr).pair t u _ _ htu ht hu g hg hg₁

end exclusive

/-! ### Mutexes -/

section mutex

variable {C : ChmConfig K} {node : ChmNode T K V}

/-- Where a call may come to hold the mutex of the segment that is installed. -/
def Phase.Working : Phase T Unit → Prop
  | .looping | .trying _ _ | .inside _ | .building _ _ => True
  | _ => False

/-- Where a call of thread `t` stands, and what it has taken, when no attempt
meets the mutex of another. -/
def MutexSeat (C : ChmConfig K) (S : Set (Chm T K V (Option T))) (t : T) (s : Chm T K V (Option T))
    (n : ℕ) (f : SegPtr T → ℕ) : Phase T Unit → Prop
  | .walking => ∀ x, f x = 0
  | .looping => ∀ x, f x = if s.lock (s.segments n) = some t ∧ x = s.segments n then 1 else 0
  | .trying g _ => Known C S g ∧ (∀ x, f x = if s.lock g = some t ∧ x = g then 1 else 0) ∧
      (g = s.segments n ∨ Stale C s g ∧ s.lock g ≠ none ∧ s.lock g ≠ some t)
  | .inside g => (∀ x, f x = if x = g then 1 else 0) ∧ s.lock g = some t ∧ g = s.segments n
  | .building g x => (∀ x, f x = if x = g then 1 else 0) ∧ s.lock g = some t ∧ g = s.segments n ∧
      Fresh C S t s x
  | .left g => (∀ x, f x = if x = g then 1 else 0) ∧ s.lock g = some t ∧ Known C S g ∧ Stale C s g
  | .leaving => True

variable {S : Set (Chm T K V (Option T))} {s s' : Chm T K V (Option T)} {t u : T} {g x : SegPtr T}
  {w : Option T} {n m : ℕ} {p p' q : Phase T Unit} {f f' : SegPtr T → ℕ}

theorem MutexSeat.quiet (hq : MutexSeat C S u s m f q) (h : SegOk C (mutexTryOps T) S s)
    (hs : Quiet s s') : MutexSeat C (insert s' S) u s' m f q := by
  cases q with
  | trying y a =>
    obtain ⟨h1, h2, h3⟩ := hq
    rw [MutexSeat, hs.segments, hs.lock]
    exact ⟨h1.insert s', h2, h3.imp_right fun h4 => ⟨h4.1.congr hs.segments, h4.2⟩⟩
  | inside y =>
    rw [MutexSeat, hs.segments, hs.lock]
    exact hq
  | building y z =>
    rw [MutexSeat, hs.segments, hs.lock]
    exact ⟨hq.1, hq.2.1, hq.2.2.1, hq.2.2.2.congr h hs.segments hs.count⟩
  | left y =>
    rw [MutexSeat, hs.lock]
    exact ⟨hq.1, hq.2.1, hq.2.2.1.insert s', hq.2.2.2.congr hs.segments⟩
  | looping =>
    rw [MutexSeat, hs.segments, hs.lock]
    exact hq
  | walking => exact hq
  | leaving => trivial

/-- Another thread takes or frees the mutex of a segment that is installed. -/
theorem MutexSeat.setLock (hq : MutexSeat C S u s m f q) (h : SegOk C (mutexTryOps T) S s)
    (hg : ¬ Stale C s g) (h0 : s.lock g ≠ some u) (hw : w ≠ some u) :
    MutexSeat C (insert (s.setLock g w) S) u (s.setLock g w) m f q := by
  have hiff : ∀ y, (s.setLock g w).lock y = some u ↔ s.lock y = some u := by
    intro y
    by_cases hy : y = g
    · subst hy
      rw [lock_setLock_self]
      exact iff_of_false hw h0
    · rw [lock_setLock_of_ne s w hy]
  cases q with
  | trying y a =>
    obtain ⟨h1, h2, h3⟩ := hq
    refine ⟨h1.insert _, fun x => by rw [h2]; simp only [hiff], h3.imp_right fun h4 => ?_⟩
    have hy : y ≠ g := by
      rintro rfl
      exact hg h4.1
    rw [lock_setLock_of_ne s w hy]
    exact h4
  | inside y => exact ⟨hq.1, (hiff y).mpr hq.2.1, hq.2.2⟩
  | building y z =>
    exact ⟨hq.1, (hiff y).mpr hq.2.1, hq.2.2.1, hq.2.2.2.congr h rfl fun _ => le_refl _⟩
  | left y => exact ⟨hq.1, (hiff y).mpr hq.2.1, hq.2.2.1.insert _, hq.2.2.2⟩
  | looping =>
    intro x
    rw [hq x]
    simp only [hiff]
    rfl
  | walking => exact hq
  | leaving => trivial

theorem MutexSeat.publish (hq : MutexSeat C S u s m f q) (h : SegOk C (mutexTryOps T) S s) (hut : u ≠ t)
    (hf : Fresh C S t s x) (hn : n < C.numSegments) (hheld : s.lock (s.segments n) = some t) :
    MutexSeat C (insert (publishAt s n x) S) u (publishAt s n x) m f q := by
  have hne : s.lock (s.segments n) ≠ some u := by
    rw [hheld]
    exact fun he => hut (Option.some.inj he).symm
  have hmn : s.lock (s.segments m) = some u → (publishAt s n x).segments m = s.segments m := by
    intro hm
    refine segments_publish_of_ne ?_
    rintro rfl
    exact hne hm
  cases q with
  | trying y a =>
    obtain ⟨h1, h2, h3⟩ := hq
    refine ⟨h1.insert _, h2, ?_⟩
    rcases h3 with rfl | ⟨h3, h4⟩
    · by_cases hmn : m = n
      · subst hmn
        exact Or.inr ⟨h.stale_publish hf hn, ne_of_eq_of_ne hheld nofun, hne⟩
      · exact Or.inl (segments_publish_of_ne hmn).symm
    · exact Or.inr ⟨h3.publish h1 hf, h4⟩
  | inside y =>
    obtain ⟨h1, h2, rfl⟩ := hq
    exact ⟨h1, h2, (hmn h2).symm⟩
  | building y z =>
    obtain ⟨h1, h2, rfl, h3⟩ := hq
    exact ⟨h1, h2, (hmn h2).symm, h3.publish h hf hut⟩
  | left y => exact ⟨hq.1, hq.2.1, hq.2.2.1.insert _, hq.2.2.2.publish hq.2.2.1 hf⟩
  | looping =>
    intro y
    rw [hq y]
    by_cases hmn : m = n
    · -- the mutex of the new segment is free
      subst hmn
      have h0 : s.lock x = none := h.untouched x hf.2
      rw [if_neg fun h1 => hne h1.1, segments_publish_self]
      exact (if_neg fun h1 => by cases h0.symm.trans h1.1).symm
    · rw [segments_publish_of_ne hmn]
      rfl
  | walking => exact hq
  | leaving => trivial

/-- The mutex that thread `u` holds was installed and held before. -/
def Kept (s s' : Chm T K V (Option T)) (u : T) : Prop :=
  ∀ m, s'.lock (s'.segments m) = some u → s.lock (s.segments m) = some u

theorem Kept.setLock (hw : w ≠ some u) : Kept s (s.setLock g w) u := by
  intro m hm
  by_cases hmg : s.segments m = g
  · rw [show (s.setLock g w).segments m = g from hmg, lock_setLock_self] at hm
    exact absurd hm hw
  · rwa [show (s.setLock g w).segments m = s.segments m from rfl, lock_setLock_of_ne s w hmg] at hm

open Classical in
/-- **What a step of one call does to the seats of all**, unless it tries for
the mutex of another. -/
theorem LockStep.mutex (h : SegOk C (mutexTryOps T) S s) (hn : n < C.numSegments)
    (st : LockStep C (mutexTryOps T) t s n p s' p') (my : MutexSeat C S t s n f p)
    (hok : ∀ g a, p = .trying g a → ∀ u, u ≠ t → s.lock g ≠ some u)
    (hown : ∀ m < C.numSegments, s.lock (s.segments m) = some t → m = n ∧ p.Working)
    (hf' : ∀ x, f' x = f x + if s'.lock x = s.lock x then 0 else 1) :
    SegOk C (mutexTryOps T) (insert s' S) s' ∧ MutexSeat C (insert s' S) t s' n f' p' ∧
    (∀ m < C.numSegments, s'.lock (s'.segments m) = some t → m = n ∧ p'.Working) ∧
    ∀ u, u ≠ t → Kept s s' u ∧ ∀ m q f₁, MutexSeat C S u s m f₁ q →
      MutexSeat C (insert s' S) u s' m f₁ q := by
  have same : s'.lock = s.lock → f' = f := by
    intro hs
    funext x
    rw [hf', hs, if_pos rfl, Nat.add_zero]
  -- a step that changes no lock
  have calm : Quiet s s' → (p.Working → p'.Working) → MutexSeat C (insert s' S) t s' n f p' →
      SegOk C (mutexTryOps T) (insert s' S) s' ∧ MutexSeat C (insert s' S) t s' n f' p' ∧
      (∀ m < C.numSegments, s'.lock (s'.segments m) = some t → m = n ∧ p'.Working) ∧
      ∀ u, u ≠ t → Kept s s' u ∧ ∀ m q f₁, MutexSeat C S u s m f₁ q →
        MutexSeat C (insert s' S) u s' m f₁ q := by
    intro hs hw hseat
    refine ⟨h.quiet hs, by rw [same hs.lock]; exact hseat, fun m hm hm' => ?_,
      fun u _ => ⟨fun m hm => ?_, fun m q f₁ hq => hq.quiet h hs⟩⟩
    · rw [hs.lock, hs.segments] at hm'
      exact (hown m hm hm').imp_right hw
    · rwa [hs.lock, hs.segments] at hm
  cases st with
  | same hs _ _ => exact calm hs.quiet id (my.quiet h hs.quiet)
  | enter =>
    refine calm (.rfl s) (fun _ => trivial) fun x => ?_
    -- a call that has not tried for its mutex does not hold it
    have hne : s.lock (s.segments n) ≠ some t := fun he => (hown n hn he).2
    rw [my x, if_neg fun h1 => hne h1.1]
  | answer => exact calm (.rfl s) False.elim trivial
  | load =>
    exact calm (.rfl s) id ⟨(h.known_segments hn).insert s, my, Or.inl rfl⟩
  | @again g a w a' hstep =>
    rcases hl : s.lock g with _ | v <;> rw [hl] at hstep <;> cases hstep
  | @fail g a w hstep =>
    obtain ⟨hk, hcount, hg⟩ := my
    rcases hl : s.lock g with _ | v
    · -- the mutex was acquired
      rw [hl] at hstep
      cases hstep
      have hg : g = s.segments n := hg.resolve_right fun h4 => h4.2.1 hl
      have hstale : ¬ Stale C s g := fun h1 => h1 n hn hg.symm
      have hne : ∀ {v}, s.lock g ≠ some v := by
        rw [hl]
        exact nofun
      refine ⟨h.setLock hk, fun x => ?_, fun m hm hm' => ?_, fun u hu => ?_⟩
      · rw [hf', hcount, if_neg fun h1 => hne h1.1, Nat.zero_add]
        rw [show (s.setLock g (some t)).segments n = g from hg.symm]
        by_cases hx : x = g
        · subst hx
          rw [lock_setLock_self, if_neg (by rw [hl]; exact nofun), if_pos ⟨rfl, rfl⟩]
        · rw [lock_setLock_of_ne s _ hx, if_pos rfl, if_neg fun h1 => hx h1.2]
      · by_cases hmn : m = n
        · exact ⟨hmn, trivial⟩
        · have hmg : s.segments m ≠ g := fun he => hmn (h.inj m hm n hn (he.trans hg))
          rw [show (s.setLock g (some t)).segments m = s.segments m from rfl,
            lock_setLock_of_ne s _ hmg] at hm'
          exact absurd (hown m hm hm').1 hmn
      · have hut : some t ≠ some u := fun he => hu (Option.some.inj he).symm
        exact ⟨.setLock hut, fun m q f₁ hq => hq.setLock h hstale hne hut⟩
    · rw [hl] at hstep
      cases hstep
  | @take g a w v hstep hv =>
    obtain ⟨hk, hcount, hg⟩ := my
    rcases hl : s.lock g with _ | v
    · rw [hl] at hstep
      cases hstep
      exact absurd rfl hv
    · -- the attempt met the mutex of the thread itself
      rw [hl] at hstep
      cases hstep
      obtain rfl : v = t := by
        by_contra hvt
        exact hok g a rfl v hvt hl
      have hg : g = s.segments n := hg.resolve_right fun h4 => h4.2.2 hl
      have hs : Quiet s (s.setLock g (some v)) := .setLock s g hl.symm
      refine calm hs id ⟨fun x => ?_, lock_setLock_self s g _, hg⟩
      rw [hcount]
      simp only [hl, true_and]
  | @unlock g =>
    obtain ⟨-, hheld, hg⟩ := my
    have hk : Known C S g := hg ▸ h.known_segments hn
    refine ⟨h.setLock hk, trivial, fun m hm hm' => ?_, fun u hu => ⟨.setLock nofun, fun m q f₁ hq => ?_⟩⟩
    · obtain ⟨rfl, -⟩ := hown m hm (Kept.setLock (w := none) nofun m hm')
      have h0 : (s.setLock g none).lock ((s.setLock g none).segments m) = none := by
        rw [show (s.setLock g none).segments m = g from hg.symm]
        exact lock_setLock_self s g none
      cases h0.symm.trans hm'
    · exact hq.setLock h (fun h1 => h1 n hn hg.symm)
        (by rw [hheld]; exact fun he => hu (Option.some.inj he).symm) nofun
  | @reload g =>
    have hseat := my.quiet h (.rfl s)
    obtain rfl := my.2.2
    exact calm (.rfl s) id hseat
  | @alloc g capacity loadFactor =>
    have hs := h.quiet_allocate t capacity loadFactor
    have hseat := my.quiet h hs
    exact calm hs id ⟨hseat.1, hseat.2.1, hseat.2.2, h.fresh_allocate t capacity loadFactor⟩
  | @publish g x =>
    obtain ⟨hcount, hheld, rfl, hf⟩ := my
    rw [same rfl]
    -- the mutex of the new segment is free
    have h0 : s.lock x = none := h.untouched x hf.2
    have hnot : ∀ m u, (publishAt s n x).lock ((publishAt s n x).segments m) = some u →
        m ≠ n ∧ s.lock (s.segments m) = some u := by
      intro m u hm
      have hmn : m ≠ n := by
        rintro rfl
        rw [segments_publish_self] at hm
        cases h0.symm.trans hm
      rw [segments_publish_of_ne hmn] at hm
      exact ⟨hmn, hm⟩
    refine ⟨h.publish hf, ⟨hcount, hheld, (h.known_segments hn).insert _, h.stale_publish hf hn⟩,
      fun m hm hm' => ?_, fun u hut => ⟨fun m hm => (hnot m u hm).2, fun m q f₁ hq =>
        hq.publish h hut hf hn hheld⟩⟩
    obtain ⟨hmn, hm'⟩ := hnot m t hm'
    exact absurd (hown m hm hm').1 hmn
  | leave hs => exact calm hs.quiet False.elim trivial

/-- No `TRYLOCK_A` is called on a mutex that another thread holds. -/
def Uncontended (_ : Trace T (Call K V) (Answer V) (Chm T K V (Option T)) (Pc T V Unit))
    (c : Config T (Call K V) (Chm T K V (Option T)) (Pc T V Unit)) (e : Event T (Call K V) (Answer V))
    (_ : Config T (Call K V) (Chm T K V (Option T)) (Pc T V Unit)) : Prop :=
  ∀ t op g a, e = .tau t → c.threads t = some (op, .tryLock g a) → ∀ u, u ≠ t → c.shared.lock g ≠ some u

/-- The mutexes, with every thread that holds one inside a call. -/
structure MutexInv (C : ChmConfig K) (node : ChmNode T K V)
    (es : Trace T (Call K V) (Answer V) (Chm T K V (Option T)) (Pc T V Unit))
    (c : Config T (Call K V) (Chm T K V (Option T)) (Pc T V Unit)) : Prop where
  seg : SegOk C (mutexTryOps T) ((program C (mutexTryOps T) node).seen es) c.shared
  own : ∀ t, ∀ m < C.numSegments, c.shared.lock (c.shared.segments m) = some t →
    ∃ op l, c.threads t = some (op, l) ∧ m = C.segNum op.key ∧ (phase l).Working
  loc : ∀ t op l, c.threads t = some (op, l) →
    MutexSeat C ((program C (mutexTryOps T) node).seen es) t c.shared (C.segNum op.key)
      (taken C (mutexTryOps T) node t es) (phase l)

theorem mutex_inv {es} {c : Config T (Call K V) (Chm T K V (Option T)) (Pc T V Unit)}
    (hr : (program C (mutexTryOps T) node).RunIf Uncontended es c) : MutexInv C node es c := by
  classical
  induction hr with
  | init =>
    refine ⟨.initial node, fun t m _ h => ?_, fun t op l h => ?_⟩
    · cases (show (none : Option T) = some t from h)
    · cases h
  | @step es c e c' hr hst hok ih =>
    have hseen : insert c.shared ((program C (mutexTryOps T) node).seen es) =
        (program C (mutexTryOps T) node).seen es := Set.insert_eq_of_mem hr.shared_mem_seen
    cases hst with
    | @call t op hidle hpre =>
      refine ⟨by rw [Program.seen, hseen]; exact ih.seg, fun u m hm hm' => ?_, fun u op₁ l₁ hu => ?_⟩
      · obtain ⟨op₁, l₁, hu, h⟩ := ih.own u m hm hm'
        refine ⟨op₁, l₁, ?_, h⟩
        have hut : u ≠ t := by
          rintro rfl
          rw [hidle] at hu
          cases hu
        exact update_eq_some.mpr (Or.inr ⟨hut, hu⟩)
      · rcases update_eq_some.mp hu with ⟨rfl, h⟩ | ⟨hut, h⟩
        · cases h
          have h0 : ∀ x, taken C (mutexTryOps T) node u ((.call u op,
              ⟨c.shared, Function.update c.threads u (some (op, start C op))⟩) :: es) x = 0 :=
            fun x => Program.changes_call op _
          have hne : c.shared.lock (c.shared.segments (C.segNum op.key)) ≠ some u := by
            intro he
            obtain ⟨op₁, l₁, hu, -⟩ := ih.own u _ (C.segNum_lt op.key) he
            rw [hidle] at hu
            cases hu
          change MutexSeat C _ u c.shared _ _ (phase (start C op : Pc T V Unit))
          rcases phase_start (T := T) (V := V) (A := Unit) C op with h | h <;> rw [h]
          · exact h0
          · intro x
            rw [if_neg fun h1 => hne h1.1]
            exact h0 x
        · rw [Program.seen, hseen, taken_of_ne _ (Ne.symm hut)]
          exact ih.loc u op₁ l₁ h
    | @tau t op l s' l' i ht hres hstep =>
      have hcount : ∀ x, taken C (mutexTryOps T) node t
          ((.tau t, ⟨s', Function.update c.threads t (some (op, l'))⟩) :: es) x =
            taken C (mutexTryOps T) node t es x + if s'.lock x = c.shared.lock x then 0 else 1 :=
        fun x => taken_tau hr x
      have hfree : ∀ g a, phase l = .trying g a → ∀ u, u ≠ t → c.shared.lock g ≠ some u := by
        intro g a hp
        refine hok t op g a rfl ?_
        rw [ht, phase_trying hp]
      have hown : ∀ m < C.numSegments, c.shared.lock (c.shared.segments m) = some t →
          m = C.segNum op.key ∧ (phase l).Working := by
        intro m hm hm'
        obtain ⟨op₁, l₁, hu, h⟩ := ih.own t m hm hm'
        rw [ht] at hu
        cases hu
        exact h
      obtain ⟨h1, h2, h3, h4⟩ := (lock_step hstep).mutex ih.seg (C.segNum_lt op.key) (ih.loc t op l ht)
        hfree hown hcount
      refine ⟨h1, fun u m hm hm' => ?_, fun u op₁ l₁ hu => ?_⟩
      · by_cases hut : u = t
        · subst hut
          exact ⟨op, l', Function.update_self .., h3 m hm hm'⟩
        · obtain ⟨op₁, l₁, hu, h⟩ := ih.own u m hm ((h4 u hut).1 m hm')
          exact ⟨op₁, l₁, update_eq_some.mpr (Or.inr ⟨hut, hu⟩), h⟩
      · rcases update_eq_some.mp hu with ⟨rfl, h⟩ | ⟨hut, h⟩
        · cases h
          exact h2
        · rw [taken_of_ne _ (Ne.symm hut)]
          exact (h4 u hut).2 _ _ _ (ih.loc u op₁ l₁ h)
    | @ret t op l r ht hres =>
      refine ⟨by rw [Program.seen, hseen]; exact ih.seg, fun u m hm hm' => ?_, fun u op₁ l₁ hu => ?_⟩
      · obtain ⟨op₁, l₁, hu, h, hw⟩ := ih.own u m hm hm'
        refine ⟨op₁, l₁, update_eq_some.mpr (Or.inr ⟨?_, hu⟩), h, hw⟩
        rintro rfl
        rw [ht] at hu
        cases hu
        rw [phase_of_result hres] at hw
        exact hw
      · rcases update_eq_some.mp hu with ⟨rfl, h⟩ | ⟨hut, h⟩
        · cases h
        · rw [Program.seen, hseen, taken_of_ne _ (Ne.symm hut)]
          exact ih.loc u op₁ l₁ h

theorem MutexSeat.held (hq : MutexSeat C S u s m f q) (hg : q.held = some g) :
    s.lock g = some u ∧ ∀ x, f x = if x = g then 1 else 0 := by
  cases q with
  | inside y | building y z | left y =>
    cases hg
    exact ⟨hq.2.1, hq.1⟩
  | walking | looping | leaving | trying => cases hg

/-- **The mutex build is exclusive as long as no attempt meets the mutex of
another thread.** -/
theorem mutex_exclusive {es} {c : Config T (Call K V) (Chm T K V (Option T)) (Pc T V Unit)}
    (hr : (program C (mutexTryOps T) node).RunIf Uncontended es c) :
    Exclusive C (mutexTryOps T) node es c where
  once t op l g ht hg := (((mutex_inv hr).loc t op l ht).held hg).2
  alone t u op l op₁ l₁ g ht hu hg hg₁ := by
    have h1 := (((mutex_inv hr).loc t op l ht).held hg).1
    have h2 := (((mutex_inv hr).loc u op₁ l₁ hu).held hg₁).1
    exact Option.some.inj (h1.symm.trans h2)

end mutex

/-! ### The builds -/

/-- **Every build with a spinning lock is exclusive in every run, and the mutex
build in every run in which no attempt meets the mutex of another thread.** -/
theorem chm_trylock (C : ChmConfig K) (node : ChmNode T K V) :
    (∀ es c, (program C (mutexTryOps T) node).RunIf Uncontended es c →
      Exclusive C (mutexTryOps T) node es c) ∧
    (∀ es c, (program C (tasTryOps T) node).Run es c → Exclusive C (tasTryOps T) node es c) ∧
    (∀ es c, (program C (ttasTryOps T) node).Run es c → Exclusive C (ttasTryOps T) node es c) ∧
    (∀ es c, (program C (ticketTryOps T) node).Run es c → Exclusive C (ticketTryOps T) node es c) :=
  ⟨fun _ _ => mutex_exclusive, fun _ _ => lawful_exclusive tasTryOps_lawful,
    fun _ _ => lawful_exclusive ttasTryOps_lawful, fun _ _ => lawful_exclusive ticketTryOps_lawful⟩

/-- Thread 0 acquires the mutex and looks at the value 0 of `TRYLOCK_A`. Thread 1
finds the mutex held, and then thread 0 does. -/
def busyMutex : List (Move (Fin 2) (Call ℕ ℕ) Unit) :=
  [.call 0 (.insert 1 1)] ++ List.replicate 4 (.tau 0 ()) ++
  [.call 1 (.insert 2 2)] ++ List.replicate 4 (.tau 1 ()) ++ List.replicate 2 (.tau 0 ())

/-- The mutex build with one segment of two buckets. -/
abbrev mutexChm : Program (Fin 2) (Call ℕ ℕ) (Answer ℕ) (Chm (Fin 2) ℕ ℕ (Option (Fin 2)))
    (Pc (Fin 2) ℕ Unit) Unit :=
  program (ChmConfig.construct 2 1 Nat.one_pos true) (mutexTryOps (Fin 2)) ⟨0, 0, .null⟩

theorem busyMutex_inside : (mutexChm.play ([], mutexChm.initial) busyMutex).any
    (fun q => decide ((q.2.threads 0).any (fun f => (phase f.2).held = some (.node none 0)) ∧
      (q.2.threads 1).any (fun f => (phase f.2).held = some (.node none 0)))) = true := by
  decide

/-- Two threads of the mutex build are behind the loop of one lock. -/
theorem mutex_not_exclusive : ¬ ∀ es c, mutexChm.Run es c →
    Exclusive (ChmConfig.construct 2 1 Nat.one_pos true) (mutexTryOps (Fin 2)) ⟨0, 0, .null⟩ es c := by
  intro h
  obtain ⟨⟨es, c⟩, hplay, hq⟩ := (Option.any_eq_true _ _).mp busyMutex_inside
  obtain ⟨h0, h1⟩ := of_decide_eq_true hq
  obtain ⟨⟨op, l⟩, ht, hl⟩ := (Option.any_eq_true _ _).mp h0
  obtain ⟨⟨op₁, l₁⟩, hu, hl₁⟩ := (Option.any_eq_true _ _).mp h1
  have hpre : ∀ t op, .call t op ∈ busyMutex → mutexChm.pre op := by
    intro t op h
    simp only [busyMutex, List.mem_append, List.mem_cons, List.mem_replicate, List.not_mem_nil,
      or_false, reduceCtorEq, and_false, Move.call.injEq] at h
    rcases h with ⟨-, rfl⟩ | ⟨-, rfl⟩ <;> rintro k v h <;> cases h <;> exact nofun
  have hex := h es c (mutexChm.play_run .init hpre hplay)
  exact absurd (hex.alone 0 1 op l op₁ l₁ _ ht hu (of_decide_eq_true hl) (of_decide_eq_true hl₁))
    (by decide)

end HashtableJava

end Ascylib
