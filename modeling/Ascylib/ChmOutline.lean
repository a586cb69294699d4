/-
# Updates, rehashes and walks

Where a call stands (`At`), and what a step of it does: it writes to its own
nodes and segments, appends a node to a list, unlinks one, or installs a new
segment (`Act`). A walk without the lock keeps what it has seen through any act
(`Act.seek`), and a thread with a lock keeps its place through the acts of all
others (`At.frame`).

Key definitions: `Act`, `At`, `lin`.
Key theorems: `At.frame`, `step_good`.
-/
import Ascylib.ChmRehash
import Ascylib.Search

set_option linter.unusedSectionVars false

namespace Ascylib

open Concur

namespace HashtableJava

variable {T K V Λ A : Type*} [DecidableEq T] [DecidableEq K] [Zero V] {C : ChmConfig K}
  {s s' : Chm T K V Λ} {S W : Set (Chm T K V Λ)} {g : SegPtr T} {x p pred curr n q : Ptr T} {m i : ℕ} {k : K}
  {v : V} {t u : T}

/-! ### Acts -/

/-- What a step of thread `t`, which may have the `m`-th lock, does. -/
inductive Act (C : ChmConfig K) (S : Set (Chm T K V Λ)) (t : T) (m : ℕ) (s : Chm T K V Λ) :
    Chm T K V Λ → Prop
  | quiet {s' : Chm T K V Λ} : Private C S t s s' → Act C S t m s s'
  | append {i : ℕ} {pred x : Ptr T} : Update C S t s m i (s.chain (s.segments m) i) [] [x] pred x →
      Act C S t m s (s.setLink (s.segments m) i pred x)
  | unlink {i : ℕ} {l r : List (Ptr T)} {pred x : Ptr T} : Update C S t s m i l (x :: r) r pred (s.next x) →
      Act C S t m s (s.setLink (s.segments m) i pred (s.next x))
  | publish {g : SegPtr T} : OwnSeg C S t g → SegWf C s m g → (∀ i < s.buckets g, ∀ x ∈ s.chain g i, Mine C S t s m x) →
      Act C S t m s (publishAt s m g)

namespace Act

variable (ha : Act C S t m s s') (h : HeapOk C S s)

include ha h

theorem toLocal : Local C S t m s s' := by
  have hw := h.wf s h.mem
  cases ha with
  | quiet hp => exact hp.toLocal h m
  | append U => exact U.toLocal hw
  | unlink U => exact U.toLocal hw
  | publish ho hg hx => exact local_publish hw hg ho hx

/-- **A walk keeps its way to the key, or the key was absent.** -/
theorem seek (hk : Seek C W s k p) (hp : Near C S p) : Seek C (insert s' W) s' k p := by
  cases ha with
  | quiet hq => exact hk.congr h hp fun x hx => hq.node x (not_own_of_met hx)
  | append U => exact hk.append h U
  | unlink U => exact hk.unlink h U
  | publish => exact hk.congr h hp fun _ _ => rfl

theorem seek_table (hg : Known C S g) (hk : Seek C W s k (s.table g i)) (hp : Near C S (s.table g i)) :
    Seek C (insert s' W) s' k (s'.table g i) := by
  cases ha with
  | quiet hq =>
    have hs := hq.shape g (not_ownSeg_of_known hg)
    rw [show s'.table g i = s.table g i by rw [Chm.table, hs, Chm.table]]
    exact hk.congr h hp fun x hx => hq.node x (not_own_of_met hx)
  | append U => exact hk.append_table h U
  | unlink U => exact hk.unlink_table h U
  | publish => exact hk.congr h hp fun _ _ => rfl

end Act

/-! ### Where a call stands -/

section at_

variable (C)

/-- The list of a key. -/
noncomputable def home (s : Chm T K V Λ) (k : K) : List (Ptr T) :=
  s.chain (s.segments (C.segNum k)) (C.bucket (s.buckets (s.segments (C.segNum k))) k)

/-- The key is not on its list. -/
def Absent (s : Chm T K V Λ) (k : K) : Prop := ∀ x ∈ home C s k, s.key x ≠ k

/-- The walk under the lock stands at `curr`, behind `pred`, and has not met the key. -/
def AtCurr (s : Chm T K V Λ) (k : K) (pred curr : Ptr T) : Prop :=
  ∃ l r, home C s k = l ++ curr :: r ∧ LastOf l pred ∧ ∀ x ∈ l, s.key x ≠ k

/-- The walk under the lock has come to the end, behind `pred`. -/
def AtEnd (s : Chm T K V Λ) (k : K) (pred : Ptr T) : Prop := LastOf (home C s k) pred ∧ Absent C s k

/-- The node that the call is to add. -/
def NewNode (S : Set (Chm T K V Λ)) (t : T) (s : Chm T K V Λ) (op : Call K V) (n : Ptr T) : Prop :=
  OwnNode C S t n ∧ s.memory.Allocated n ∧ op = .insert (s.key n) (s.val n)

/-- The result was right at some moment since the call, which changes nothing. -/
def Evidence (W : Set (Chm T K V Λ)) (op : Call K V) (r : Answer V) : Prop :=
  ∃ s₀ ∈ W, (mapObject K V).apply op (absMap C s₀) = (absMap C s₀, r)

/-- The call is an update. -/
def Updating (op : Call K V) : Prop := ∀ k, op ≠ .search k

/-- What a walk without the lock is for. -/
def Walks (w : Walk) (op : Call K V) : Prop :=
  (w = .search ∧ op = .search op.key) ∨ (w = .contains ∧ Updating op)

/-- The state of a rehash: with the buckets before `b` of the old segment, and
the nodes `l` of bucket `b`. -/
structure Rehash (S : Set (Chm T K V Λ)) (t : T) (s : Chm T K V Λ) (op : Call K V) (r : Re T) (b : ℕ)
    (l : List (Ptr T)) : Prop where
  old : r.segOld = s.segments (C.segNum op.key)
  absent : Absent C s op.key
  new : NewNode C S t s op r.newNode
  copied : Copied C S t s (C.segNum op.key) r.segNew (expect C s (s.segments (C.segNum op.key)) b l)

/-- The list that is copied, and the bucket of the new segment for a node. -/
noncomputable abbrev oldChain (s : Chm T K V Λ) (op : Call K V) (b : ℕ) : List (Ptr T) :=
  s.chain (s.segments (C.segNum op.key)) b

abbrev idx (s : Chm T K V Λ) (op : Call K V) (x : Ptr T) : ℕ :=
  C.bucket (2 * s.buckets (s.segments (C.segNum op.key))) (s.key x)

/-- Where a call stands. -/
def At (S W : Set (Chm T K V Λ)) (t : T) (s : Chm T K V Λ) (op : Call K V) : Pc T V A → Prop
  | .walkSeg w => Walks w op
  | .walkBucket w g => Walks w op ∧ Met (fun s g => ∃ m < C.numSegments, s.segments m = g) W g ∧
      Seek C W s op.key (s.table g (C.bucket (s.buckets g) op.key))
  | .walkKey w curr => Walks w op ∧ Met (Linked C) W curr ∧ Seek C W s op.key curr
  | .walkNext w curr => Walks w op ∧ Met (Linked C) W curr ∧ Seek C W s op.key curr ∧ s.key curr ≠ op.key
  | .walkVal curr => op = .search op.key ∧ Met (Linked C) W curr ∧ s.key curr = op.key
  | .lockSeg | .tryLock _ _ | .bucket _ => Updating op
  | .testKey _ pred curr => Updating op ∧ AtCurr C s op.key pred curr
  | .loadNext _ curr => Updating op ∧ s.key curr ≠ op.key ∧ ∃ pred, AtCurr C s op.key pred curr
  | .unlockFound _ => Evidence C W op (.flag false)
  | .unlockMissing _ => Evidence C W op (.val 0)
  | .alloc _ pred => AtEnd C s op.key pred ∧ ∃ v, op = .insert op.key v
  | .loadSize _ pred n | .link _ pred n _ =>
    AtEnd C s op.key pred ∧ NewNode C S t s op n ∧ s.next n = .null
  | .unlinkNext _ pred curr => op = .remove op.key ∧ AtCurr C s op.key pred curr ∧ s.key curr = op.key
  | .unlink _ pred curr next => (op = .remove op.key ∧ AtCurr C s op.key pred curr ∧ s.key curr = op.key) ∧
      next = s.next curr
  | .free _ curr | .loadSizeRemove _ curr | .setSizeRemove _ curr _ | .unlockRemove _ curr
  | .removeVal curr => Met (Linked C) S curr
  | .reOld _ n => Absent C s op.key ∧ NewNode C S t s op n
  | .reAlloc segOld n => segOld = s.segments (C.segNum op.key) ∧ Absent C s op.key ∧ NewNode C S t s op n
  | .reBucket r b => Rehash C S t s op r b [] ∧ b ≤ s.buckets (s.segments (C.segNum op.key))
  | .reFirst r b curr => Rehash C S t s op r b [] ∧ b < s.buckets (s.segments (C.segNum op.key)) ∧
      ∃ l, oldChain C s op b = curr :: l
  | .reOnly r b curr j => Rehash C S t s op r b [] ∧ b < s.buckets (s.segments (C.segNum op.key)) ∧
      oldChain C s op b = [curr] ∧ j = idx C s op curr
  | .reLast r b curr lastRun j last => Rehash C S t s op r b [] ∧
      b < s.buckets (s.segments (C.segNum op.key)) ∧ (∃ l, oldChain C s op b = curr :: l) ∧
      ∃ l₁ l₂ l₃, oldChain C s op b = l₁ ++ l₂ ++ last :: l₃ ∧ l₂.head? = some lastRun ∧
        ∀ x ∈ l₂, idx C s op x = j
  | .reLastNext r b curr lastRun j last => Rehash C S t s op r b [] ∧
      b < s.buckets (s.segments (C.segNum op.key)) ∧ (∃ l, oldChain C s op b = curr :: l) ∧
      ∃ l₁ l₂ l₃, oldChain C s op b = l₁ ++ (l₂ ++ [last]) ++ l₃ ∧ (l₂ ++ [last]).head? = some lastRun ∧
        ∀ x ∈ l₂ ++ [last], idx C s op x = j
  | .reRun r b curr lastRun j => Rehash C S t s op r b [] ∧
      b < s.buckets (s.segments (C.segNum op.key)) ∧ (∃ l, oldChain C s op b = curr :: l) ∧
      ∃ l₁ l₂, oldChain C s op b = l₁ ++ l₂ ∧ l₂.head? = some lastRun ∧ ∀ x ∈ l₂, idx C s op x = j
  | .reCopy r b p lastRun => b < s.buckets (s.segments (C.segNum op.key)) ∧
      ∃ l₁ l₂ l₃, oldChain C s op b = l₁ ++ p :: l₂ ++ l₃ ∧ l₃.head? = some lastRun ∧
        Rehash C S t s op r b (l₁ ++ l₃)
  | .reStore r b p lastRun j n => b < s.buckets (s.segments (C.segNum op.key)) ∧
      (∃ l₁ l₂ l₃, oldChain C s op b = l₁ ++ p :: l₂ ++ l₃ ∧ l₃.head? = some lastRun ∧
        Rehash C S t s op r b (l₁ ++ l₃)) ∧
      j = idx C s op p ∧ OwnNode C S t n ∧ s.memory.Allocated n ∧ entry s n = entry s p ∧
      s.next n = s.table r.segNew j
  | .reFree r b p lastRun | .reNext r b p lastRun => b < s.buckets (s.segments (C.segNum op.key)) ∧
      ∃ l₁ l₂ l₃, oldChain C s op b = l₁ ++ p :: l₂ ++ l₃ ∧ l₃.head? = some lastRun ∧
        Rehash C S t s op r b (l₁ ++ [p] ++ l₃)
  | .reNew r => Rehash C S t s op r (s.buckets (s.segments (C.segNum op.key))) []
  | .reNewNext r next => Rehash C S t s op r (s.buckets (s.segments (C.segNum op.key))) [] ∧
      next = s.table r.segNew (idx C s op r.newNode)
  | .reNewStore r => Rehash C S t s op r (s.buckets (s.segments (C.segNum op.key))) [] ∧
      s.next r.newNode = s.table r.segNew (idx C s op r.newNode)
  | .reSize r | .reSetSize r _ | .rePublish r => r.segOld = s.segments (C.segNum op.key) ∧
      Absent C s op.key ∧ ∃ v, op = .insert op.key v ∧
        Copied C S t s (C.segNum op.key) r.segNew (added C s (s.segments (C.segNum op.key)) op.key v)
  | .setSize _ _ | .unlockInsert _ | .reRelease _ | .reReleaseTable _ | .done _ => True
  | .unchanged r => Evidence C W op r

/-- The result of a call that has taken effect. -/
def lin (s : Chm T K V Λ) : Pc T V A → Option (Answer V)
  | .setSize _ _ | .unlockInsert _ | .reRelease _ | .reReleaseTable _ => some (.flag true)
  | .free _ curr | .loadSizeRemove _ curr | .setSizeRemove _ curr _ | .unlockRemove _ curr
  | .removeVal curr => some (.val (s.val curr))
  | .done r => some r
  | _ => none

end at_

/-! ### What a thread keeps -/

section keeps

variable {op : Call K V} {r : Re T} {b : ℕ} {l l' : List (Ptr T)}

theorem LinkedAt.of_home (hw : SegWf C s (C.segNum k) (s.segments (C.segNum k))) (hx : x ∈ home C s k) :
    LinkedAt s (C.segNum k) x := ⟨_, hw.bucket_lt k, hx⟩

theorem Evidence.mono {W' : Set (Chm T K V Λ)} {a : Answer V} (h : Evidence C W op a) (hW : W ⊆ W') :
    Evidence C W' op a :=
  let ⟨s₀, h0, ha⟩ := h
  ⟨s₀, hW h0, ha⟩

section home

variable (hs : Same C S t (C.segNum k) s s') (hw : SegWf C s (C.segNum k) (s.segments (C.segNum k)))

include hs hw

theorem Same.home_eq : home C s' k = home C s k := by
  unfold home
  rw [hs.segments, hs.buckets_eq]
  exact hs.chain_eq hw (hw.bucket_lt k)

theorem Same.key_home (hx : x ∈ home C s k) : s'.key x = s.key x := hs.key_eq (Or.inl (.of_home hw hx))

theorem AtCurr.same (h : AtCurr C s k pred curr) : AtCurr C s' k pred curr := by
  obtain ⟨l, r, hl, hp, hk⟩ := h
  refine ⟨l, r, by rw [hs.home_eq hw]; exact hl, hp, fun x hx => ?_⟩
  rw [hs.key_home hw (by rw [hl]; exact List.mem_append_left _ hx)]
  exact hk x hx

omit hs hw in
theorem AtCurr.mem (h : AtCurr C s k pred curr) : curr ∈ home C s k := by
  obtain ⟨l, r, hl, -, -⟩ := h
  rw [hl]
  simp

theorem Absent.same (h : Absent C s k) : Absent C s' k := by
  intro x hx
  rw [hs.home_eq hw] at hx
  rw [hs.key_home hw hx]
  exact h x hx

theorem AtEnd.same (h : AtEnd C s k pred) : AtEnd C s' k pred :=
  ⟨by rw [hs.home_eq hw]; exact h.1, h.2.same hs hw⟩

end home

theorem NewNode.same (h : NewNode C S t s op n) (hs : Same C S t m s s') :
    NewNode C (insert s' S) t s' op n := by
  have hm : Mine C S t s m n := Or.inr ⟨h.1, h.2.1⟩
  refine ⟨hs.own n h.1, h.2.1.mono hs.count, ?_⟩
  rw [hs.key_eq hm, hs.val_eq hm]
  exact h.2.2

section rehash

variable (hs : Same C S t (C.segNum op.key) s s')
  (hw : SegWf C s (C.segNum op.key) (s.segments (C.segNum op.key)))

include hs hw

theorem Rehash.same (h : Rehash C S t s op r b l) (hg : s'.shape r.segNew = s.shape r.segNew)
    (hb : b < s.buckets (s.segments (C.segNum op.key)) ∨ l = []) (hl : ∀ x ∈ l, x ∈ oldChain C s op b) :
    Rehash C (insert s' S) t s' op r b l where
  old := by rw [hs.segments, h.old]
  absent := h.absent.same hs hw
  new := h.new.same hs
  copied := by
    rw [hs.segments, hs.expect_eq hw hb hl]
    exact h.copied.same hs hw hg

theorem Same.oldChain_eq (hb : b < s.buckets (s.segments (C.segNum op.key))) :
    oldChain C s' op b = oldChain C s op b := by
  unfold oldChain
  rw [hs.segments]
  exact hs.chain_eq hw hb

omit hw in
theorem Same.idx_eq (hx : Mine C S t s (C.segNum op.key) x) : idx C s' op x = idx C s op x := by
  unfold idx
  rw [hs.segments, hs.buckets_eq, hs.key_eq hx]

theorem Same.added_eq (k : K) (v : V) : added C s' (s'.segments (C.segNum op.key)) k v =
    added C s (s.segments (C.segNum op.key)) k v := by
  funext i
  unfold added full
  rw [hs.segments, hs.buckets_eq, hs.expect_eq hw (Or.inr rfl) (by simp)]

omit hs hw in
theorem Mine.of_chain (hb : b < s.buckets (s.segments (C.segNum op.key))) (hx : x ∈ oldChain C s op b) :
    Mine C S t s (C.segNum op.key) x := Or.inl ⟨b, hb, hx⟩

end rehash

/-- **A thread with a lock keeps its place while nobody touches what it has.** -/
theorem At.same {l : Pc T V A} (hat : At C S W u s op l) (hheld : (phase l).held ≠ none)
    (hw : SegWf C s (C.segNum op.key) (s.segments (C.segNum op.key)))
    (hs : Same C S u (C.segNum op.key) s s') (hshape : ∀ g, OwnSeg C S u g → s'.shape g = s.shape g) :
    At C (insert s' S) (insert s' W) u s' op l := by
  have hnew : ∀ {r : Re T} {b l}, Rehash C S u s op r b l → s'.shape r.segNew = s.shape r.segNew :=
    fun h => hshape _ h.copied.own
  have hb := hs.buckets_eq
  cases l with
  | walkSeg | walkBucket | walkKey | walkNext | walkVal | lockSeg | tryLock | removeVal | done | unchanged =>
    exact absurd rfl hheld
  | bucket => exact hat
  | testKey seg pred curr => exact ⟨hat.1, hat.2.same hs hw⟩
  | loadNext seg curr =>
    obtain ⟨h1, h2, pred, h3⟩ := hat
    exact ⟨h1, by rw [hs.key_home hw h3.mem]; exact h2, pred, h3.same hs hw⟩
  | unlockFound | unlockMissing => exact hat.mono (Set.subset_insert _ _)
  | alloc seg pred => exact ⟨hat.1.same hs hw, hat.2⟩
  | loadSize seg pred n | link seg pred n sizepp =>
    obtain ⟨h1, h2, h3⟩ := hat
    exact ⟨h1.same hs hw, h2.same hs, by rw [hs.next_eq (Or.inr ⟨h2.1, h2.2.1⟩)]; exact h3⟩
  | unlinkNext seg pred curr =>
    obtain ⟨h1, h2, h3⟩ := hat
    exact ⟨h1, h2.same hs hw, by rw [hs.key_home hw h2.mem]; exact h3⟩
  | unlink seg pred curr next =>
    obtain ⟨⟨h1, h2, h3⟩, h4⟩ := hat
    refine ⟨⟨h1, h2.same hs hw, by rw [hs.key_home hw h2.mem]; exact h3⟩, ?_⟩
    rw [hs.next_eq (Or.inl (.of_home hw h2.mem))]
    exact h4
  | free | loadSizeRemove | setSizeRemove | unlockRemove => exact hat.insert s'
  | setSize | unlockInsert | reRelease | reReleaseTable => trivial
  | reOld seg n => exact ⟨hat.1.same hs hw, hat.2.same hs⟩
  | reAlloc segOld n =>
    obtain ⟨h1, h2, h3⟩ := hat
    exact ⟨by rw [hs.segments]; exact h1, h2.same hs hw, h3.same hs⟩
  | reBucket r b =>
    refine ⟨hat.1.same hs hw (hnew hat.1) (Or.inr rfl) (by simp), ?_⟩
    rw [hs.segments, hb]
    exact hat.2
  | reFirst r b curr =>
    obtain ⟨h1, h2, h3⟩ := hat
    refine ⟨h1.same hs hw (hnew h1) (Or.inr rfl) (by simp), by rw [hs.segments, hb]; exact h2, ?_⟩
    rw [hs.oldChain_eq hw h2]
    exact h3
  | reOnly r b curr j =>
    obtain ⟨h1, h2, h3, h4⟩ := hat
    refine ⟨h1.same hs hw (hnew h1) (Or.inr rfl) (by simp), by rw [hs.segments, hb]; exact h2, ?_, ?_⟩
    · rw [hs.oldChain_eq hw h2]
      exact h3
    · rw [hs.idx_eq (.of_chain h2 (by rw [h3]; simp))]
      exact h4
  | reLast r b curr lastRun j last =>
    obtain ⟨h1, h2, h3, l₁, l₂, l₃, h4, h5, h6⟩ := hat
    refine ⟨h1.same hs hw (hnew h1) (Or.inr rfl) (by simp), by rw [hs.segments, hb]; exact h2, ?_, ?_⟩
    all_goals rw [hs.oldChain_eq hw h2]
    · exact h3
    · refine ⟨l₁, l₂, l₃, h4, h5, fun x hx => ?_⟩
      rw [hs.idx_eq (.of_chain h2 (by rw [h4]; simp [hx]))]
      exact h6 x hx
  | reLastNext r b curr lastRun j last =>
    obtain ⟨h1, h2, h3, l₁, l₂, l₃, h4, h5, h6⟩ := hat
    refine ⟨h1.same hs hw (hnew h1) (Or.inr rfl) (by simp), by rw [hs.segments, hb]; exact h2, ?_, ?_⟩
    all_goals rw [hs.oldChain_eq hw h2]
    · exact h3
    · refine ⟨l₁, l₂, l₃, h4, h5, fun x hx => ?_⟩
      rw [hs.idx_eq (.of_chain h2 (by rw [h4]; exact List.mem_append_left _ (List.mem_append_right _ hx)))]
      exact h6 x hx
  | reRun r b curr lastRun j =>
    obtain ⟨h1, h2, h3, l₁, l₂, h4, h5, h6⟩ := hat
    refine ⟨h1.same hs hw (hnew h1) (Or.inr rfl) (by simp), by rw [hs.segments, hb]; exact h2, ?_, ?_⟩
    all_goals rw [hs.oldChain_eq hw h2]
    · exact h3
    · refine ⟨l₁, l₂, h4, h5, fun x hx => ?_⟩
      rw [hs.idx_eq (.of_chain h2 (by rw [h4]; exact List.mem_append_right _ hx))]
      exact h6 x hx
  | reCopy r b p lastRun =>
    obtain ⟨h1, l₁, l₂, l₃, h2, h3, h4⟩ := hat
    refine ⟨by rw [hs.segments, hb]; exact h1, l₁, l₂, l₃, by rw [hs.oldChain_eq hw h1]; exact h2, h3, ?_⟩
    refine h4.same hs hw (hnew h4) (Or.inl h1) fun x hx => ?_
    rw [h2]
    rcases List.mem_append.mp hx with hx | hx <;> simp [hx]
  | reStore r b p lastRun j n =>
    obtain ⟨h1, ⟨l₁, l₂, l₃, h2, h3, h4⟩, h5, h6, h7, h8, h9⟩ := hat
    have hp : Mine C S u s (C.segNum op.key) p := .of_chain h1 (by rw [h2]; simp)
    have hn : Mine C S u s (C.segNum op.key) n := Or.inr ⟨h6, h7⟩
    refine ⟨by rw [hs.segments, hb]; exact h1, ⟨l₁, l₂, l₃, by rw [hs.oldChain_eq hw h1]; exact h2, h3, ?_⟩,
      by rw [hs.idx_eq hp]; exact h5, hs.own n h6, h7.mono hs.count, ?_, ?_⟩
    · refine h4.same hs hw (hnew h4) (Or.inl h1) fun x hx => ?_
      rw [h2]
      rcases List.mem_append.mp hx with hx | hx <;> simp [hx]
    · rw [entry, entry, hs.key_eq hn, hs.val_eq hn, hs.key_eq hp, hs.val_eq hp]
      exact h8
    · rw [hs.next_eq hn, Chm.table, hnew h4]
      exact h9
  | reFree r b p lastRun | reNext r b p lastRun =>
    obtain ⟨h1, l₁, l₂, l₃, h2, h3, h4⟩ := hat
    refine ⟨by rw [hs.segments, hb]; exact h1, l₁, l₂, l₃, by rw [hs.oldChain_eq hw h1]; exact h2, h3, ?_⟩
    refine h4.same hs hw (hnew h4) (Or.inl h1) fun x hx => ?_
    rw [h2]
    rcases List.mem_append.mp hx with hx | hx
    · rcases List.mem_append.mp hx with hx | hx
      · simp [hx]
      · rw [List.mem_singleton.mp hx]
        simp
    · simp [hx]
  | reNew r =>
    have h := Rehash.same hs hw hat (hnew hat) (Or.inr rfl) (by simp)
    rw [At, hs.segments, hb]
    exact h
  | reNewNext r next =>
    have h := hat.1.same hs hw (hnew hat.1) (Or.inr rfl) (by simp)
    have hn := hs.idx_eq (Or.inr ⟨hat.1.new.1, hat.1.new.2.1⟩)
    rw [At, hs.segments, hb, hn, Chm.table, hnew hat.1]
    exact ⟨h, hat.2⟩
  | reNewStore r =>
    have h := hat.1.same hs hw (hnew hat.1) (Or.inr rfl) (by simp)
    have hm : Mine C S u s (C.segNum op.key) r.newNode := Or.inr ⟨hat.1.new.1, hat.1.new.2.1⟩
    rw [At, hs.segments, hb, hs.idx_eq hm, hs.next_eq hm, Chm.table, hnew hat.1]
    exact ⟨h, hat.2⟩
  | reSize r | reSetSize r n | rePublish r =>
    obtain ⟨h1, h2, v, h3, h4⟩ := hat
    refine ⟨by rw [hs.segments]; exact h1, h2.same hs hw, v, h3, ?_⟩
    rw [hs.added_eq hw]
    exact h4.same hs hw (hshape _ h4.own)

/-- **A call without a lock keeps what it has seen through any act.** -/
theorem At.away {l : Pc T V A} (hat : At C S W u s op l) (hheld : (phase l).held = none)
    (h : HeapOk C S s) (hr : Reads C W s) (hW : W ⊆ S) (ha : Act C S t m s s') :
    At C (insert s' S) (insert s' W) u s' op l := by
  have hl := ha.toLocal h
  have hkey : ∀ {y}, Met (Linked C) W y → s'.key y = s.key y := fun hy =>
    hl.key _ (not_own_of_met (hy.mono hW))
  cases l with
  | bucket | testKey | loadNext | unlockFound | alloc | loadSize | link | setSize | unlockInsert
  | unlockMissing | unlinkNext | unlink | free | loadSizeRemove | setSizeRemove | unlockRemove | reOld
  | reAlloc | reBucket | reFirst | reOnly | reLast | reLastNext | reRun | reCopy | reStore | reFree
  | reNext | reNew | reNewNext | reNewStore | reSize | reSetSize | rePublish | reRelease
  | reReleaseTable => cases hheld
  | walkSeg w => exact hat
  | walkBucket w g =>
    obtain ⟨h1, h2, h3⟩ := hat
    have hg : Known C S g := by
      obtain ⟨s₀, h0, m, hm, he⟩ := h2
      exact ⟨s₀, hW h0, m, hm, he⟩
    refine ⟨h1, h2.insert s', ?_⟩
    rw [hl.buckets g (not_ownSeg_of_known hg)]
    exact ha.seek_table h hg h3 fun hn => (hr.near_table hW h h2 op.key hn).mono hW
  | walkKey w curr =>
    obtain ⟨h1, h2, h3⟩ := hat
    exact ⟨h1, h2.insert s', ha.seek h h3 fun _ => h2.mono hW⟩
  | walkNext w curr =>
    obtain ⟨h1, h2, h3, h4⟩ := hat
    exact ⟨h1, h2.insert s', ha.seek h h3 fun _ => h2.mono hW, by rw [hkey h2]; exact h4⟩
  | walkVal curr =>
    obtain ⟨h1, h2, h3⟩ := hat
    exact ⟨h1, h2.insert s', by rw [hkey h2]; exact h3⟩
  | lockSeg | tryLock => exact hat
  | removeVal curr => exact hat.insert s'
  | done r => trivial
  | unchanged r => exact hat.mono (Set.subset_insert _ _)

end keeps

/-! ### Where a step leads -/

section leads

variable {op : Call K V} {r : Re T} {b : ℕ} {l l' : List (Ptr T)} {lastRun : Ptr T}

theorem lin_copyTo (s : Chm T K V Λ) (r : Re T) (b : ℕ) (p q : Ptr T) :
    lin s (copyTo r b p q : Pc T V A) = none := by
  unfold copyTo
  split_ifs <;> rfl

theorem Evidence.none (hop : (op = .search op.key) ∨ (op = .remove op.key))
    (h : ∃ s₀ ∈ W, absMap C s₀ op.key = none) : Evidence C W op (.val 0) := by
  obtain ⟨s₀, h0, hk⟩ := h
  refine ⟨s₀, h0, ?_⟩
  rcases hop with hop | hop <;> rw [hop]
  · exact apply_search_none hk
  · exact apply_remove_none hk

/-- A walk without the lock goes on. -/
theorem At.walkTo {w : Walk} (hw : Walks w op) (hp : Near C W p) (hk : Seek C W s op.key p) :
    At C S W t s op (walkTo op w p : Pc T V A) := by
  unfold HashtableJava.walkTo
  split_ifs with h0
  · exact ⟨hw, hp h0, hk⟩
  · rw [not_not.mp h0] at hk
    rcases hw with ⟨rfl, hop⟩ | ⟨rfl, hup⟩
    · exact Evidence.none (Or.inl hop) hk.absent
    · cases op with
      | search k => exact absurd rfl (hup k)
      | insert k v => exact hup
      | remove k => exact Evidence.none (Or.inr rfl) hk.absent

/-- The walk under the lock goes on. -/
theorem At.scanTo {seg : SegPtr T} {l₁ l₂ : List (Ptr T)} (h : Wf C s) (hs : s ∈ W) (hup : Updating op)
    (hl : home C s op.key = l₁ ++ l₂) (hp : LastOf l₁ pred) (hk : ∀ x ∈ l₁, s.key x ≠ op.key)
    (hpath : Path s.next .null p l₂) : At C S W t s op (scanTo op seg pred p : Pc T V A) := by
  unfold HashtableJava.scanTo
  split_ifs with h0
  · obtain ⟨l₃, rfl⟩ := hpath.exists_cons h0
    exact ⟨hup, l₁, l₃, hl, hp, hk⟩
  · have hnil : l₂ = [] := hpath.eq_nil (not_not.mp h0)
    rw [hnil, List.append_nil] at hl
    have habs : Absent C s op.key := by
      intro x hx
      rw [hl] at hx
      exact hk x hx
    cases op with
    | search k => exact absurd rfl (hup k)
    | insert k v => exact ⟨⟨by rw [hl]; exact hp, habs⟩, v, rfl⟩
    | remove k => exact Evidence.none (Or.inr rfl) ⟨s, hs, h.absMap_eq_none habs⟩

/-- A bucket of the old segment is done. -/
theorem Rehash.next (h : Rehash C S t s op r b (oldChain C s op b)) : Rehash C S t s op r (b + 1) [] :=
  ⟨h.old, h.absent, h.new, expect_next (C := C) s _ b ▸ h.copied⟩

theorem Private.setTable_same (h : HeapOk C S s) (hm : m < C.numSegments) (j : ℕ) (q : Ptr T)
    (hg : OwnSeg C S t g) : Same C S t m s (s.setTable g j q) :=
  (Private.setTable s j q hg).same h hm fun _ _ _ => rfl

/-- A store to the table of the new segment. -/
theorem Rehash.store {j : ℕ} {l₁ : List (Ptr T)} (h : Rehash C S t s op r b l) (hh : HeapOk C S s)
    (hb : b < s.buckets (s.segments (C.segNum op.key))) (hl' : ∀ x ∈ l', x ∈ oldChain C s op b)
    (hj : j < s.buckets r.segNew) (hq : Path s.next .null q l₁)
    (hl : (l₁.map (entry s)).Perm (expect C s (s.segments (C.segNum op.key)) b l' j))
    (hf : ∀ i < s.buckets r.segNew, i ≠ j → (expect C s (s.segments (C.segNum op.key)) b l i).Perm
      (expect C s (s.segments (C.segNum op.key)) b l' i))
    (hm : ∀ x ∈ l₁, Mine C S t s (C.segNum op.key) x) :
    Rehash C (insert (s.setTable r.segNew j q) S) t (s.setTable r.segNew j q) op r b l' := by
  have hs := Private.setTable_same hh (C.segNum_lt op.key) j q h.copied.own
  have hw := hh.wf s hh.mem _ (C.segNum_lt op.key)
  refine ⟨by rw [hs.segments, h.old], h.absent.same hs hw, h.new.same hs, ?_⟩
  have hc := h.copied.store hj hq hl hf hm hs hw
  rw [hs.segments, hs.expect_eq hw (Or.inl hb) hl']
  exact hc

theorem Rehash.idx_lt (h : Rehash C S t s op r b l)
    (hw : SegWf C s (C.segNum op.key) (s.segments (C.segNum op.key))) (x : Ptr T) :
    idx C s op x < s.buckets r.segNew := by
  obtain ⟨j, hj⟩ := hw.pow
  rw [h.copied.buckets, idx, hj, ← Nat.pow_succ', ChmConfig.bucket_eq]
  exact Nat.mod_lt _ (Nat.two_pow_pos _)

/-- The new bucket of a node comes from its old bucket. -/
theorem idx_mod (hw : SegWf C s (C.segNum op.key) (s.segments (C.segNum op.key)))
    (hb : b < s.buckets (s.segments (C.segNum op.key))) (hx : x ∈ oldChain C s op b) :
    idx C s op x % s.buckets (s.segments (C.segNum op.key)) = b := by
  rw [idx, bucket_double hw.pow]
  exact (hw.place b hb x hx).2

/-- **The end of a list, whose nodes all go to one bucket, is taken over.** -/
theorem Rehash.run {j : ℕ} {l₁ l₂ : List (Ptr T)} (h : Rehash C S t s op r b []) (hh : HeapOk C S s)
    (hb : b < s.buckets (s.segments (C.segNum op.key))) (hl : oldChain C s op b = l₁ ++ l₂)
    (hx : l₂.head? = some q) (hj : ∀ x ∈ l₂, idx C s op x = j) :
    Rehash C (insert (s.setTable r.segNew j q) S) t (s.setTable r.segNew j q) op r b l₂ := by
  have hw := hh.wf s hh.mem _ (C.segNum_lt op.key)
  obtain ⟨l₃, rfl⟩ : ∃ l₃, l₂ = q :: l₃ := by
    cases l₂ with
    | nil => cases hx
    | cons x l₃ => exact ⟨l₃, by rw [Option.some.inj hx]⟩
  have hmem : ∀ x ∈ q :: l₃, x ∈ oldChain C s op b := fun x hx => by
    rw [hl]
    exact List.mem_append_right _ hx
  have hqj := hj q List.mem_cons_self
  have hmod : j % s.buckets (s.segments (C.segNum op.key)) = b := by
    rw [← hqj]
    exact idx_mod hw hb (hmem q List.mem_cons_self)
  refine h.store hh hb hmem (hqj ▸ h.idx_lt hw q) (hw.path b hb |>.suffix hl) ?_ (fun i _ hij => ?_)
    fun x hx => .of_chain hb (hmem x hx)
  · rw [expect_of_eq hmod, share_all hj]
  · rcases lt_trichotomy (i % s.buckets (s.segments (C.segNum op.key))) b with hi | hi | hi
    · rw [expect_of_lt hi, expect_of_lt hi]
    · rw [expect_of_eq hi, expect_of_eq hi, share_none fun x hx he => hij (he.symm.trans (hj x hx))]
      rfl
    · rw [expect_of_gt hi, expect_of_gt hi]

/-- **A copy of a node is put before its list.** -/
theorem Rehash.copy {l₁ l₃ : List (Ptr T)} (h : Rehash C S t s op r b (l₁ ++ l₃)) (hh : HeapOk C S s)
    (hb : b < s.buckets (s.segments (C.segNum op.key)))
    (hl : ∀ x ∈ l₁ ++ [p] ++ l₃, x ∈ oldChain C s op b) (ho : OwnNode C S t n)
    (ha : s.memory.Allocated n) (he : entry s n = entry s p)
    (hn : s.next n = s.table r.segNew (idx C s op p)) :
    Rehash C (insert (s.setTable r.segNew (idx C s op p) n) S) t
      (s.setTable r.segNew (idx C s op p) n) op r b (l₁ ++ [p] ++ l₃) := by
  have hw := hh.wf s hh.mem _ (C.segNum_lt op.key)
  have hlt := h.idx_lt hw p
  have hmod := idx_mod hw hb (hl p (by simp))
  have hnull : n ≠ .null := by
    obtain ⟨⟨i, rfl⟩, -⟩ := ho
    exact nofun
  have hpath : Path s.next .null n (n :: s.chain r.segNew (idx C s op p)) :=
    ⟨rfl, hnull, by rw [hn]; exact h.copied.path _ hlt⟩
  refine h.store hh hb hl hlt hpath ?_ (fun i _ hij => ?_) fun x hx => ?_
  · have hc := h.copied.content _ hlt
    rw [expect_of_eq hmod] at hc ⊢
    rw [share_append, share_append, share_all (l := [p]) (by simp [idx])]
    rw [share_append] at hc
    rw [List.map_cons, he, List.append_assoc]
    exact (hc.cons _).trans List.perm_middle.symm
  · rcases lt_trichotomy (i % s.buckets (s.segments (C.segNum op.key))) b with hi | hi | hi
    · rw [expect_of_lt hi, expect_of_lt hi]
    · rw [expect_of_eq hi, expect_of_eq hi, share_append, share_append, share_append,
        share_none (l := [p]) fun x hx he => ?_, List.append_nil]
      rw [List.mem_singleton.mp hx] at he
      exact hij he.symm
    · rw [expect_of_gt hi, expect_of_gt hi]
  · rcases List.mem_cons.mp hx with rfl | hx
    · exact Or.inr ⟨ho, ha⟩
    · exact h.copied.mine _ hlt x hx

/-- The copying goes on. -/
theorem At.copyTo {l₁ l₂ l₃ : List (Ptr T)} (hb : b < s.buckets (s.segments (C.segNum op.key)))
    (hl : oldChain C s op b = l₁ ++ l₂ ++ l₃) (hr : l₃.head? = some lastRun)
    (hp : Path s.next .null p (l₂ ++ l₃)) (h : Rehash C S t s op r b (l₁ ++ l₃)) :
    At C S W t s op (copyTo r b p lastRun : Pc T V A) := by
  obtain ⟨l₄, rfl⟩ : ∃ l₄, l₃ = lastRun :: l₄ := by
    cases l₃ with
    | nil => cases hr
    | cons x l₄ => exact ⟨l₄, by rw [Option.some.inj hr]⟩
  unfold HashtableJava.copyTo
  split_ifs with h0
  · cases l₂ with
    | nil => exact absurd hp.1 h0
    | cons x l₂ =>
      obtain rfl := hp.1
      exact ⟨hb, l₁, l₂, _, hl, rfl, h⟩
  · obtain rfl := not_not.mp h0
    -- no node is on the list twice
    have hnil : l₂ = [] := by
      cases l₂ with
      | nil => rfl
      | cons x l₂ =>
        have hnd := hp.nodup
        rw [← hp.1, List.cons_append, List.nodup_cons] at hnd
        exact absurd (List.mem_append_right _ List.mem_cons_self) hnd.1
    rw [hnil, List.append_nil] at hl
    rw [← hl] at h
    exact ⟨h.next, hb⟩

end leads

/-! ### Every step -/

section good

variable {op : Call K V} {l l' : Pc T V A}

/-- What is to be shown of a step. -/
structure Good (C : ChmConfig K) (S W : Set (Chm T K V Λ)) (t : T) (s s' : Chm T K V Λ) (op : Call K V)
    (l l' : Pc T V A) : Prop where
  act : Act C S t (C.segNum op.key) s s'
  quiet : Private C S t s s' ∨ ∃ g, (phase l).held = some g ∧ g = s.segments (C.segNum op.key)
  at_ : At C (insert s' S) (insert s' W) t s' op l'
  effect : (lin s' l' = lin s l ∧ absMap C s' = absMap C s) ∨
    (lin s l = none ∧ ∃ r, lin s' l' = some r ∧
      (mapObject K V).apply op (absMap C s) = (absMap C s', r))

theorem Good.calm (h : HeapOk C S s) (hp : Private C S t s s')
    (hat : At C (insert s' S) (insert s' W) t s' op l') (hl : lin s' l' = lin s l) :
    Good C S W t s s' op l l' :=
  ⟨.quiet hp, Or.inl hp, hat, Or.inl ⟨hl, hp.absMap_eq h⟩⟩

theorem Good.stay (h : HeapOk C S s) (hs : s ∈ W) (hat : At C S W t s op l') (hl : lin s l' = lin s l) :
    Good C S W t s s op l l' := by
  refine .calm h (.of_eq rfl rfl rfl rfl) ?_ hl
  rw [Set.insert_eq_of_mem h.mem, Set.insert_eq_of_mem hs]
  exact hat

variable {O : TryLockOps T Λ A} {Held : Λ → Prop} {AtA : A → Prop}

/-- A node of the thread that no list of the new segment has. -/
theorem Rehash.setNext {r : Re T} {b : ℕ} (h : Rehash C S t s op r b []) (hh : HeapOk C S s)
    (hb : b = s.buckets (s.segments (C.segNum op.key))) (q : Ptr T) :
    Rehash C (insert (s.setNext r.newNode q) S) t (s.setNext r.newNode q) op r b [] := by
  have hw := hh.wf s hh.mem _ (C.segNum_lt op.key)
  have hp := Private.setNext s q h.new.1
  have hkey := key_setNext s r.newNode q
  have hval := val_setNext s r.newNode q
  have hchain : ∀ {j}, j < s.buckets (s.segments (C.segNum op.key)) →
      (s.setNext r.newNode q).chain (s.segments (C.segNum op.key)) j =
        s.chain (s.segments (C.segNum op.key)) j := fun hj => hp.chain_eq hh (C.segNum_lt op.key) hj
  have hhome : home C (s.setNext r.newNode q) op.key = home C s op.key := hchain (hw.bucket_lt _)
  have hentry : entry (s.setNext r.newNode q) = entry s := by
    unfold entry
    rw [hkey, hval]
  have hexp : expect C (s.setNext r.newNode q) (s.segments (C.segNum op.key)) b [] =
      expect C s (s.segments (C.segNum op.key)) b [] := by
    have hpos := Nat.zero_lt_of_lt (hw.bucket_lt op.key)
    funext i
    have hi := Nat.mod_lt i hpos
    have hc := hchain hi
    have hbk : (s.setNext r.newNode q).buckets (s.segments (C.segNum op.key)) =
        s.buckets (s.segments (C.segNum op.key)) := rfl
    simp only [expect, share, hentry, hbk, hc]
  -- the new key is in no bucket
  have hne : ∀ i < s.buckets r.segNew, ∀ x ∈ s.chain r.segNew i, x ≠ r.newNode := by
    rintro i hi x hx rfl
    have he := (h.copied.content i hi).mem_iff.mp (List.mem_map_of_mem hx)
    rw [hb] at he
    refine not_mem_full hw h.absent he ?_
    exact (congrArg Call.key h.new.2.2).symm
  refine ⟨h.old, fun x hx => ?_, ⟨hp.own hh h.new.1, h.new.2.1, ?_⟩, ?_⟩
  · rw [hhome] at hx
    rw [hkey]
    exact h.absent x hx
  · rw [hkey, hval]
    exact h.new.2.2
  · rw [show (s.setNext r.newNode q).segments = s.segments from rfl, hexp]
    refine h.copied.congr rfl rfl rfl (fun i hi x hx => memory_setNext s q (hne i hi x hx))
      (hp.ownSeg hh.mem h.copied.own) fun x hx => ?_
    rcases hx with ⟨j, hj, hx⟩ | ⟨h1, h2⟩
    · exact Or.inl ⟨j, hj, (hchain hj).symm ▸ hx⟩
    · exact Or.inr ⟨hp.own hh h1, h2⟩

/-- The new node is put before its list. -/
theorem Rehash.add {r : Re T} (h : Rehash C S t s op r (s.buckets (s.segments (C.segNum op.key))) [])
    (hh : HeapOk C S s) (hn : s.next r.newNode = s.table r.segNew (idx C s op r.newNode)) :
    Copied C (insert (s.setTable r.segNew (idx C s op r.newNode) r.newNode) S) t
      (s.setTable r.segNew (idx C s op r.newNode) r.newNode) (C.segNum op.key) r.segNew
      (added C s (s.segments (C.segNum op.key)) (s.key r.newNode) (s.val r.newNode)) := by
  have hw := hh.wf s hh.mem _ (C.segNum_lt op.key)
  have hlt := h.idx_lt hw r.newNode
  have hnull : r.newNode ≠ .null := by
    obtain ⟨⟨i, he⟩, -⟩ := h.new.1
    rw [he]
    exact nofun
  have hpath : Path s.next .null r.newNode (r.newNode :: s.chain r.segNew (idx C s op r.newNode)) :=
    ⟨rfl, hnull, by rw [hn]; exact h.copied.path _ hlt⟩
  refine h.copied.store hlt hpath ?_ (fun i _ hij => ?_) (fun x hx => ?_)
    (Private.setTable_same hh (C.segNum_lt op.key) _ _ h.copied.own) hw
  · rw [added, if_pos rfl]
    exact (h.copied.content _ hlt).cons _
  · rw [added, if_neg hij]
  · rcases List.mem_cons.mp hx with rfl | hx
    · exact Or.inr ⟨h.new.1, h.new.2.1⟩
    · exact h.copied.mine _ hlt x hx

theorem path_oldChain (hw : SegWf C s (C.segNum op.key) (s.segments (C.segNum op.key))) {b : ℕ}
    (hb : b < s.buckets (s.segments (C.segNum op.key))) :
    Path s.next .null (s.table (s.segments (C.segNum op.key)) b) (oldChain C s op b) := hw.path b hb

/-- Steps of a rehash. -/
theorem rehash_good (h : HeapOk C S s) (hr : Reads C W s) {segOld segNew : SegPtr T}
    (hp : phase l = .building segOld segNew) (hg : segOld = s.segments (C.segNum op.key))
    (hat : At C S W t s op l) : Good C S W t s (step C O t s op l).1 op l (step C O t s op l).2 := by
  have hwf := h.wf s h.mem
  have hw := hwf _ (C.segNum_lt op.key)
  have table : ∀ {g}, OwnSeg C S t g → ∀ j q, Private C S t s (s.setTable g j q) :=
    fun hg j q => .setTable s j q hg
  -- the bucket of a node in the new segment
  have hidx : ∀ {r : Re T} {b l}, Rehash C S t s op r b l → ∀ x,
      C.bucket (s.seg r.segNew).numBuckets (s.key x) = idx C s op x := by
    intro r b l hr x
    have hb : (s.seg r.segNew).numBuckets = 2 * s.buckets (s.segments (C.segNum op.key)) := hr.copied.buckets
    rw [hb]
  cases l with
  | walkSeg | walkBucket | walkKey | walkNext | walkVal | lockSeg | tryLock | removeVal | done | unchanged
  | bucket | testKey | loadNext | unlockFound | alloc | loadSize | link | setSize | unlockInsert
  | unlockMissing | unlinkNext | unlink | free | loadSizeRemove | setSizeRemove | unlockRemove | reOld
  | reAlloc | reRelease | reReleaseTable => cases hp
  | reBucket r b =>
    cases hp
    obtain ⟨h1, h2⟩ := hat
    simp only [step, hg]
    split_ifs with hb hn
    · obtain ⟨l', hl'⟩ := (path_oldChain hw hb).exists_cons hn
      exact .stay h hr.mem ⟨h1, hb, l', hl'⟩ rfl
    · have hnil := (path_oldChain hw hb).eq_nil (not_not.mp hn)
      rw [← hnil] at h1
      exact .stay h hr.mem ⟨h1.next, hb⟩ rfl
    · obtain rfl : b = s.buckets (s.segments (C.segNum op.key)) := Nat.le_antisymm h2 (not_lt.mp hb)
      exact .stay h hr.mem h1 rfl
  | reFirst r b curr =>
    obtain ⟨h1, hb, l', hl'⟩ := hat
    have hpath := path_oldChain hw hb
    rw [hl'] at hpath
    simp only [step, hidx h1]
    split_ifs with hn
    · have hnil : l' = [] := hpath.2.2.eq_nil hn
      exact .stay h hr.mem ⟨h1, hb, by rw [hl', hnil], rfl⟩ rfl
    · obtain ⟨l'', rfl⟩ := hpath.2.2.exists_cons hn
      exact .stay h hr.mem ⟨h1, hb, ⟨_, hl'⟩, [], [curr], l'', hl', rfl, by simp⟩ rfl
  | reOnly r b curr j =>
    obtain ⟨h1, hb, hl', rfl⟩ := hat
    have hs := Private.setTable_same h (C.segNum_lt op.key) (idx C s op curr) curr h1.copied.own
    have hone : oldChain C s op b = [] ++ [curr] := hl'
    have hrun := h1.run h hb hone rfl fun x hx => by rw [List.mem_singleton.mp hx]
    rw [← hl', ← hs.oldChain_eq hw hb] at hrun
    have hb' : b < (s.setTable r.segNew (idx C s op curr) curr).buckets
        ((s.setTable r.segNew (idx C s op curr) curr).segments (C.segNum op.key)) := by
      rw [hs.segments, hs.buckets_eq]
      exact hb
    exact .calm h (table h1.copied.own ..) ⟨hrun.next, hb'⟩ rfl
  | reLast r b curr lastRun j last =>
    obtain ⟨h1, hb, hl', l₁, l₂, l₃, h2, h3, h4⟩ := hat
    simp only [step, hidx h1]
    split_ifs with hj
    · refine .stay h hr.mem ⟨h1, hb, hl', l₁ ++ l₂, [], l₃, by simp [h2], rfl, by simp⟩ rfl
    · refine .stay h hr.mem ⟨h1, hb, hl', l₁, l₂, l₃, by simp [h2], ?_, fun x hx => ?_⟩ rfl
      · rw [List.head?_append, h3]
        rfl
      · rcases List.mem_append.mp hx with hx | hx
        · exact h4 x hx
        · rw [List.mem_singleton.mp hx]
          exact not_not.mp hj
  | reLastNext r b curr lastRun j last =>
    obtain ⟨h1, hb, hl', l₁, l₂, l₃, h2, h3, h4⟩ := hat
    have hpath : Path s.next .null (s.table (s.segments (C.segNum op.key)) b) ((l₁ ++ l₂) ++ last :: l₃) := by
      have hp := path_oldChain hw hb
      rw [h2] at hp
      simpa using hp
    simp only [step]
    split_ifs with hn
    · obtain ⟨l₄, rfl⟩ := hpath.drop.exists_cons hn
      exact .stay h hr.mem ⟨h1, hb, hl', l₁, l₂ ++ [last], l₄, h2, h3, h4⟩ rfl
    · rw [hpath.drop.eq_nil (not_not.mp hn), List.append_nil] at h2
      exact .stay h hr.mem ⟨h1, hb, hl', l₁, l₂ ++ [last], h2, h3, h4⟩ rfl
  | reRun r b curr lastRun j =>
    obtain ⟨h1, hb, ⟨l', hl'⟩, l₁, l₂, h2, h3, h4⟩ := hat
    have hs := Private.setTable_same h (C.segNum_lt op.key) j lastRun h1.copied.own
    have hrun := h1.run h hb h2 h3 h4
    have hpath := path_oldChain hw hb
    have hcurr : Path s.next .null curr (oldChain C s op b) := by
      rw [hl'] at hpath ⊢
      exact ⟨rfl, hpath.2⟩
    have hb' : b < (s.setTable r.segNew j lastRun).buckets
        ((s.setTable r.segNew j lastRun).segments (C.segNum op.key)) := by
      rw [hs.segments, hs.buckets_eq]
      exact hb
    have h2' : oldChain C (s.setTable r.segNew j lastRun) op b = [] ++ l₁ ++ l₂ :=
      (hs.oldChain_eq hw hb).trans h2
    exact .calm h (table h1.copied.own ..) (.copyTo hb' h2' h3 (h2 ▸ hcurr) hrun) (lin_copyTo _ r b _ _)
  | reCopy r b p lastRun =>
    obtain ⟨hb, l₁, l₂, l₃, h2, h3, h4⟩ := hat
    simp only [step, hidx h4]
    have hp := Private.allocateLlSimple h t (s.key p) (s.val p) (s.table r.segNew (idx C s op p))
    have hs := hp.same h (C.segNum_lt op.key) fun x _ ha => by
      refine s.memory.mem_allocate_of_ne x ⟨_, _, _⟩ t ?_
      rintro rfl
      exact s.memory.not_allocated_next t ha
    have hm := s.memory.mem_allocate_self ⟨s.key p, s.val p, s.table r.segNew (idx C s op p)⟩ t
    have hat' : At C S W t s op (.reCopy r b p lastRun : Pc T V A) := ⟨hb, l₁, l₂, l₃, h2, h3, h4⟩
    have hat'' := hat'.same (fun h => by cases h) hw hs fun _ _ => rfl
    have hpm : Mine C S t s (C.segNum op.key) p := .of_chain hb (by rw [h2]; simp)
    refine .calm h hp ⟨hat''.1, hat''.2, (hs.idx_eq hpm).symm, hp.own h (h.own_next t), ?_, ?_, ?_⟩ rfl
    · exact Or.inr (Or.inr ⟨t, _, rfl, s.memory.count_allocate_self _ t⟩)
    · have hp' : entry (s.allocateLlSimple t (s.key p) (s.val p)
          (s.table r.segNew (idx C s op p))).1 p = entry s p := by
        rw [entry, hs.key_eq hpm, hs.val_eq hpm]
        rfl
      exact (congrArg (fun n => (n.key, n.val)) hm).trans hp'.symm
    · exact congrArg ChmNode.next hm
  | reStore r b p lastRun j n =>
    obtain ⟨hb, ⟨l₁, l₂, l₃, h2, h3, h4⟩, rfl, h5, h6, h7, h8⟩ := hat
    have hs := Private.setTable_same h (C.segNum_lt op.key) (idx C s op p) n h4.copied.own
    have hsub : ∀ x ∈ l₁ ++ [p] ++ l₃, x ∈ oldChain C s op b := by
      intro x hx
      rw [h2]
      simp only [List.mem_append, List.mem_cons] at hx ⊢
      tauto
    have hcopy := h4.copy h hb hsub h5 h6 h7 h8
    have hb' : b < (s.setTable r.segNew (idx C s op p) n).buckets
        ((s.setTable r.segNew (idx C s op p) n).segments (C.segNum op.key)) := by
      rw [hs.segments, hs.buckets_eq]
      exact hb
    refine .calm h (table h4.copied.own ..) ⟨hb', l₁, l₂, l₃, ?_, h3, hcopy⟩ rfl
    exact (hs.oldChain_eq hw hb).trans h2
  | reFree r b p lastRun =>
    have hp : Private C S t s (s.release p) := .of_eq rfl rfl rfl rfl
    have hs := hp.same h (C.segNum_lt op.key) fun _ _ _ => rfl
    exact .calm h hp (hat.same (fun h => by cases h) hw hs fun _ _ => rfl) rfl
  | reNext r b p lastRun =>
    obtain ⟨hb, l₁, l₂, l₃, h2, h3, h4⟩ := hat
    have hpath := path_oldChain hw hb
    rw [h2, List.append_assoc, List.cons_append] at hpath
    refine .stay h hr.mem (.copyTo hb ?_ h3 hpath.drop h4) (lin_copyTo s r b _ _)
    rw [h2]
    simp
  | reNew r =>
    simp only [step, hidx hat]
    exact .stay h hr.mem ⟨hat, rfl⟩ rfl
  | reNewNext r next =>
    obtain ⟨h1, rfl⟩ := hat
    have hp := Private.setNext s (s.table r.segNew (idx C s op r.newNode)) h1.new.1
    have hre := h1.setNext h rfl (s.table r.segNew (idx C s op r.newNode))
    have hidx' : idx C (s.setNext r.newNode (s.table r.segNew (idx C s op r.newNode))) op r.newNode =
        idx C s op r.newNode := congrArg (C.bucket _) (congrFun (key_setNext s r.newNode _) r.newNode)
    refine .calm h hp ⟨hre, ?_⟩ rfl
    exact (next_setNext_self s r.newNode _).trans (congrArg (s.table r.segNew) hidx'.symm)
  | reNewStore r =>
    obtain ⟨h1, h2⟩ := hat
    simp only [step, hidx h1]
    have hs := Private.setTable_same h (C.segNum_lt op.key) (idx C s op r.newNode) r.newNode h1.copied.own
    have hkey : op.key = s.key r.newNode := congrArg Call.key h1.new.2.2
    have hadd := h1.add h h2
    refine .calm h (table h1.copied.own ..) ⟨h1.old, h1.absent.same hs hw, s.val r.newNode, ?_, ?_⟩ rfl
    · exact h1.new.2.2.trans (by rw [hkey])
    · rw [hs.added_eq hw, hkey]
      rw [← hkey]
      exact hkey ▸ hadd
  | reSize r => exact .stay h hr.mem hat rfl
  | reSetSize r n =>
    have hp : Private C S t s (s.setSize r.segNew n) := .modifySeg C S t s _ fun _ => rfl
    have hs := hp.same h (C.segNum_lt op.key) fun _ _ _ => rfl
    exact .calm h hp (hat.same (fun h => by cases h) hw hs fun g _ =>
      shape_modifySeg s _ g fun _ => rfl) rfl
  | rePublish r =>
    cases hp
    obtain ⟨h1, h2, v, h3, h4⟩ := hat
    have hseg := h4.segWf hw rfl h2
    refine ⟨.publish h4.own hseg h4.mine, Or.inr ⟨_, rfl, hg⟩, trivial, Or.inr ⟨rfl, .flag true, rfl, ?_⟩⟩
    have hnone : absMap C s op.key = none := hwf.absMap_eq_none h2
    have happ := apply_insert_none (v := v) hnone
    rw [← h3] at happ
    have habs := absMap_publish hwf (C.segNum_lt op.key) hseg rfl hnone (h4.entries hw rfl h2)
    rw [happ, ← habs]
    rfl

end good

end HashtableJava

end Ascylib
