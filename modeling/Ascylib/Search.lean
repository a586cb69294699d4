/-
# The search interface and the finite map it stands for

`src/search.h`: every search structure has `search`, `insert` and `remove` on
keys, and `length`. A value 0 means that the key is absent, so clients insert
values other than 0. Alone, the structure is a map from keys to values.

In a linearizable run the number of keys is the number of successful inserts
less the number of successful removes whenever no call is running
(`LinearizableIf.size`), and a `remove` of a key that was seen and that nobody
else removes does not return 0 (`remove_of_observed`).
-/
import Ascylib.Concur.Atomic
import Mathlib.Algebra.BigOperators.Group.Finset.Basic
import Mathlib.Algebra.BigOperators.Ring.Finset
import Mathlib.Data.Set.Card
import Mathlib.Order.BoundedOrder.Basic
import Mathlib.Tactic.Linarith
import Mathlib.Tactic.Ring

namespace Ascylib

open Concur

/-- The calls of the interface. -/
inductive Call (K V : Type*) where
  | search (key : K)
  | insert (key : K) (val : V)
  | remove (key : K)
  deriving DecidableEq

/-- What a call returns: `search` and `remove` a value, `insert` a truth value. -/
inductive Answer (V : Type*) where
  | val (v : V)
  | flag (b : Bool)
  deriving DecidableEq

variable {K V : Type*} [DecidableEq K] [Zero V]

/-- The key of a call. -/
def Call.key : Call K V → K
  | .search k => k
  | .insert k _ => k
  | .remove k => k

/-- Keys strictly between the sentinels'. -/
def Keyed {K V : Type*} [LinearOrder K] [BoundedOrder K] (op : Call K V) : Prop :=
  ⊥ < op.key ∧ op.key < ⊤

/-- The clients' part: keys strictly between the sentinels', and values other
than 0. -/
def Client {K V : Type*} [LinearOrder K] [BoundedOrder K] [Zero V] (op : Call K V) : Prop :=
  ⊥ < op.key ∧ op.key < ⊤ ∧ ∀ k v, op = .insert k v → v ≠ 0

theorem Client.keyed {K V : Type*} [LinearOrder K] [BoundedOrder K] [Zero V] {op : Call K V}
    (h : Client op) : Keyed op := ⟨h.1, h.2.1⟩

/-- The finite map behind the interface. -/
def mapObject (K V : Type*) [DecidableEq K] [Zero V] :
    Object (Call K V) (Answer V) (K → Option V) where
  init := fun _ => none
  apply
    | .search k, m => (m, .val ((m k).getD 0))
    | .insert k v, m =>
      match m k with
      | none => (Function.update m k (some v), .flag true)
      | some _ => (m, .flag false)
    | .remove k, m =>
      match m k with
      | none => (m, .val 0)
      | some v => (Function.update m k none, .val v)

section apply

variable {m : K → Option V} {k : K} {v w : V}

theorem apply_search (m : K → Option V) (k : K) :
    (mapObject K V).apply (.search k) m = (m, .val ((m k).getD 0)) := rfl

theorem apply_search_none (h : m k = none) :
    (mapObject K V).apply (.search k) m = (m, .val 0) := by
  simp [mapObject, h]

theorem apply_search_some (h : m k = some v) :
    (mapObject K V).apply (.search k) m = (m, .val v) := by
  simp [mapObject, h]

theorem apply_insert_none (h : m k = none) :
    (mapObject K V).apply (.insert k v) m = (Function.update m k (some v), .flag true) := by
  simp [mapObject, h]

theorem apply_insert_some (h : m k = some w) :
    (mapObject K V).apply (.insert k v) m = (m, .flag false) := by
  simp [mapObject, h]

theorem apply_remove_none (h : m k = none) :
    (mapObject K V).apply (.remove k) m = (m, .val 0) := by
  simp [mapObject, h]

theorem apply_remove_some (h : m k = some v) :
    (mapObject K V).apply (.remove k) m = (Function.update m k none, .val v) := by
  simp [mapObject, h]

end apply

/-- Only an insert adds a key. -/
theorem apply_gain {op : Call K V} {m m' : K → Option V} {r : Answer V} {k : K} {v : V}
    (h : (mapObject K V).apply op m = (m', r)) (h1 : m k = none) (h2 : m' k = some v) :
    op = .insert k v ∧ r = .flag true := by
  rcases op with j | ⟨j, w⟩ | j
  · rw [apply_search] at h
    cases h
    simp [h1] at h2
  · rcases hj : m j with _ | x
    · rw [apply_insert_none hj] at h
      cases h
      by_cases hk : k = j
      · subst hk
        rw [Function.update_self] at h2
        cases h2
        exact ⟨rfl, rfl⟩
      · simp [hk, h1] at h2
    · rw [apply_insert_some hj] at h
      cases h
      simp [h1] at h2
  · rcases hj : m j with _ | x
    · rw [apply_remove_none hj] at h
      cases h
      simp [h1] at h2
    · rw [apply_remove_some hj] at h
      cases h
      by_cases hk : k = j
      · subst hk; simp at h2
      · simp [hk, h1] at h2

/-- Only a remove deletes a key. -/
theorem apply_loss {op : Call K V} {m m' : K → Option V} {r : Answer V} {k : K} {v : V}
    (h : (mapObject K V).apply op m = (m', r)) (h1 : m k = some v) (h2 : m' k = none) :
    op = .remove k ∧ r = .val v := by
  rcases op with j | ⟨j, w⟩ | j
  · rw [apply_search] at h
    cases h
    simp [h1] at h2
  · rcases hj : m j with _ | x
    · rw [apply_insert_none hj] at h
      cases h
      by_cases hk : k = j
      · subst hk; simp at h2
      · simp [hk, h1] at h2
    · rw [apply_insert_some hj] at h
      cases h
      simp [h1] at h2
  · rcases hj : m j with _ | x
    · rw [apply_remove_none hj] at h
      cases h
      simp [h1] at h2
    · rw [apply_remove_some hj] at h
      cases h
      by_cases hk : k = j
      · subst hk
        rw [hj] at h1
        cases h1
        exact ⟨rfl, rfl⟩
      · simp [hk, h1] at h2

/-! ### The number of keys -/

section size

variable [DecidableEq V] {Tid σ L ι : Type*}

def isInsert : Event Tid (Call K V) (Answer V) → Bool
  | .ret _ (.insert _ _) (.flag true) => true
  | _ => false

def isRemove : Event Tid (Call K V) (Answer V) → Bool
  | .ret _ (.remove _) (.val v) => v ≠ 0
  | _ => false

/-- The successful inserts that have returned. -/
def inserts (es : Trace Tid (Call K V) (Answer V) σ L) : ℕ := es.countP fun p => isInsert p.1

/-- The successful removes that have returned. -/
def removes (es : Trace Tid (Call K V) (Answer V) σ L) : ℕ := es.countP fun p => isRemove p.1

/-- What an answered call adds to the number of keys. -/
def gain : Call K V → Answer V → ℤ
  | .insert _ _, .flag true => 1
  | .remove _, .val v => if v = 0 then 0 else -1
  | _, _ => 0

omit [DecidableEq K] in
theorem net_ret (es : Trace Tid (Call K V) (Answer V) σ L) (t : Tid) (op : Call K V)
    (r : Answer V) (c : Config Tid (Call K V) σ L) :
    ((inserts ((.ret t op r, c) :: es) : ℤ) - removes ((.ret t op r, c) :: es)) =
      inserts es - removes es + gain op r := by
  simp only [inserts, removes, List.countP_cons]
  rcases op with k | ⟨k, v⟩ | k <;> rcases r with v | _ | _
  case remove.val =>
    by_cases hv : v = 0
    · simp [isInsert, isRemove, gain, hv]
    · simp [isInsert, isRemove, gain, hv]
      ring
  case insert.flag.true =>
    simp [isInsert, isRemove, gain]
    ring
  all_goals simp [isInsert, isRemove, gain]

/-- What a call that has taken effect but not returned added. -/
def Status.gain : Status (Call K V) (Answer V) → ℤ
  | .done op r => Ascylib.gain op r
  | _ => 0

omit [DecidableEq K] in
theorem gain_done (op : Call K V) (r : Answer V) :
    Status.gain (.done op r : Status (Call K V) (Answer V)) = gain op r := rfl

/-- The number of keys of an atomic map, with its calls under way. -/
structure Counted [Fintype Tid] (n : ℤ) (a : Atomic Tid (Call K V) (Answer V) (K → Option V)) :
    Prop where
  finite : {k | a.state k ≠ none}.Finite
  value : ∀ k, a.state k ≠ some 0
  pending : ∀ t k v, a.status t = .pending (.insert k v) → v ≠ 0
  size : ({k | a.state k ≠ none}.ncard : ℤ) = n + ∑ t, Status.gain (a.status t)

variable [DecidableEq Tid] [Fintype Tid]

omit [DecidableEq K] [Zero V] [DecidableEq V] in
theorem dom_update_some {m : K → Option V} [DecidableEq K] (k : K) (v : V) :
    {j | Function.update m k (some v) j ≠ none} = insert k {j | m j ≠ none} := by
  ext j
  by_cases h : j = k
  · subst h; simp
  · simp [h]

omit [DecidableEq K] [Zero V] [DecidableEq V] in
theorem dom_update_none {m : K → Option V} [DecidableEq K] (k : K) :
    {j | Function.update m k none j ≠ none} = {j | m j ≠ none} \ {k} := by
  ext j
  by_cases h : j = k
  · subst h; simp
  · simp [h]

omit [DecidableEq K] in
/-- One status changes: the sum of the gains changes by the difference. -/
theorem sum_gain_update (f : Tid → Status (Call K V) (Answer V)) (t : Tid)
    (x : Status (Call K V) (Answer V)) :
    ∑ u, Status.gain (Function.update f t x u) =
      ∑ u, Status.gain (f u) + (Status.gain x - Status.gain (f t)) := by
  have h : ∀ u, Status.gain (Function.update f t x u) =
      Status.gain (f u) + if u = t then Status.gain x - Status.gain (f t) else 0 := by
    intro u
    by_cases hu : u = t
    · subst hu; simp
    · simp [hu]
  simp [h, Finset.sum_add_distrib]

theorem Counted.lin {n : ℤ} {a b : Atomic Tid (Call K V) (Answer V) (K → Option V)}
    (h : Counted n a) (hab : Atomic.Lin (mapObject K V) a b) : Counted n b := by
  obtain ⟨hp⟩ := hab
  rename_i t op
  have hpend : ∀ r u k v, Function.update a.status t (.done op r) u = .pending (.insert k v) →
      v ≠ 0 := by
    intro r u k v hu
    by_cases hut : u = t
    · subst hut; simp at hu
    · exact h.pending u k v (by simpa [hut] using hu)
  have hg : Status.gain (a.status t) = 0 := by rw [hp]; rfl
  have hsize := h.size
  cases op with
  | search k =>
    refine ⟨h.finite, h.value, hpend _, ?_⟩
    rw [sum_gain_update, hg]
    simpa [apply_search, gain_done, gain] using hsize
  | insert k v =>
    rcases hk : a.state k with _ | w
    · rw [apply_insert_none hk]
      have hv := h.pending t k v hp
      refine ⟨?_, fun j => ?_, hpend _, ?_⟩
      · simp only [dom_update_some]; exact h.finite.insert k
      · by_cases hj : j = k
        · subst hj; simpa using hv
        · simpa [hj] using h.value j
      · rw [sum_gain_update, hg]
        simp only [dom_update_some]
        rw [Set.ncard_insert_of_notMem (by simp [hk]) h.finite]
        rw [gain_done, gain]
        push_cast
        linarith
    · rw [apply_insert_some hk]
      refine ⟨h.finite, h.value, hpend _, ?_⟩
      rw [sum_gain_update, hg]
      simpa [gain_done, gain] using hsize
  | remove k =>
    rcases hk : a.state k with _ | w
    · rw [apply_remove_none hk]
      refine ⟨h.finite, h.value, hpend _, ?_⟩
      rw [sum_gain_update, hg]
      simpa [gain_done, gain] using hsize
    · rw [apply_remove_some hk]
      have hw : w ≠ 0 := fun h0 => h.value k (by rw [hk, h0])
      have hmem : k ∈ {j | a.state j ≠ none} := by simp [hk]
      refine ⟨?_, fun j => ?_, hpend _, ?_⟩
      · simp only [dom_update_none]; exact h.finite.sdiff
      · by_cases hj : j = k
        · subst hj; simp
        · simpa [hj] using h.value j
      · rw [sum_gain_update, hg]
        simp only [dom_update_none]
        rw [gain_done, gain, if_neg hw]
        have : (({j | a.state j ≠ none} \ {k}).ncard : ℤ) + 1 = {j | a.state j ≠ none}.ncard := by
          exact_mod_cast Set.ncard_sdiff_singleton_add_one hmem h.finite
        linarith

theorem Counted.lins {n : ℤ} {a b : Atomic Tid (Call K V) (Answer V) (K → Option V)}
    (h : Counted n a) (hab : Relation.ReflTransGen (Atomic.Lin (mapObject K V)) a b) :
    Counted n b := by
  induction hab with
  | refl => exact h
  | tail _ hl ih => exact ih.lin hl

/-- **The number of keys along a linearizable run.** -/
theorem counted_of_linearized {P : Program Tid (Call K V) (Answer V) σ L ι} {ok} {abs}
    (hpre : ∀ k v, P.pre (.insert k v) → v ≠ 0) {es c a} (hr : P.RunIf ok es c)
    (h : Linearized (mapObject K V) P abs es a) :
    Counted ((inserts es : ℤ) - removes es) a := by
  induction h generalizing c with
  | init => exact ⟨by simp [Atomic.initial, mapObject], by simp [Atomic.initial, mapObject],
      by simp [Atomic.initial], by simp [Atomic.initial, mapObject, inserts, removes, Status.gain]⟩
  | @step es a e c' b _ hab _ ih =>
    cases hr with
    | step hr hst _ =>
    obtain ⟨a₁, b₁, h1, h2, h3⟩ := hab
    have h1 := (ih hr).lins h1
    refine Counted.lins ?_ h3
    cases h2 with
    | @call t op hidle =>
      refine ⟨h1.finite, h1.value, fun u k v hu => ?_, ?_⟩
      · by_cases hut : u = t
        · subst hut
          simp only [Atomic.set, Function.update_self, Status.pending.injEq] at hu
          subst hu
          cases hst with | call _ hp => exact hpre k v hp
        · exact h1.pending u k v (by simpa [Atomic.set, hut] using hu)
      · have := h1.size
        simp only [Atomic.set]
        rw [sum_gain_update, hidle]
        simpa [inserts, removes, isInsert, isRemove, Status.gain] using this
    | tau => simpa [inserts, removes, isInsert, isRemove] using h1
    | @ret t op r hd =>
      refine ⟨h1.finite, h1.value, fun u k v hu => ?_, ?_⟩
      · by_cases hut : u = t
        · subst hut; simp [Atomic.set] at hu
        · exact h1.pending u k v (by simpa [Atomic.set, hut] using hu)
      · have hs := h1.size
        simp only [Atomic.set]
        rw [sum_gain_update, hd]
        rw [net_ret, gain_done, show Status.gain (.idle : Status (Call K V) (Answer V)) = 0 from rfl]
        linarith

/-- Finitely many keys are present. -/
theorem LinearizableIf.finite {P : Program Tid (Call K V) (Answer V) σ L ι} {ok} {abs}
    (hl : LinearizableIf (mapObject K V) P ok abs) (hpre : ∀ k v, P.pre (.insert k v) → v ≠ 0)
    {es c} (hr : P.RunIf ok es c) : {k | abs c.shared k ≠ none}.Finite := by
  obtain ⟨a, ha⟩ := hl es c hr
  rw [← ha.state_eq hr]
  exact (counted_of_linearized hpre hr ha).finite

/-- **With no call running, the number of keys is the number of successful
inserts less the number of successful removes.** -/
theorem LinearizableIf.size {P : Program Tid (Call K V) (Answer V) σ L ι} {ok} {abs}
    (hl : LinearizableIf (mapObject K V) P ok abs) (hpre : ∀ k v, P.pre (.insert k v) → v ≠ 0)
    {es c} (hr : P.RunIf ok es c) (hidle : ∀ t, c.threads t = none) :
    {k | abs c.shared k ≠ none}.Finite ∧
      ({k | abs c.shared k ≠ none}.ncard : ℤ) = inserts es - removes es := by
  obtain ⟨a, ha⟩ := hl es c hr
  have hc := counted_of_linearized hpre hr ha
  have hs : ∑ t, Status.gain (a.status t) = 0 :=
    Finset.sum_eq_zero fun t _ => by rw [(ha.idle_iff hr t).mpr (hidle t)]; rfl
  have := hc.size
  rw [hs, add_zero, ha.state_eq hr] at this
  exact ⟨ha.state_eq hr ▸ hc.finite, this⟩

end size

/-! ### A remove that must not fail -/

section present

variable {Tid : Type*} [DecidableEq Tid]

/-- Results that show the key to be present once the call has taken effect. -/
def Sees (k : K) : Call K V → Answer V → Prop
  | .search j, .val v => j = k ∧ v ≠ 0
  | .insert j _, _ => j = k
  | _, _ => False

/-- Some call has returned and shown the key to be present. -/
def Observed (k : K) (es : List (Event Tid (Call K V) (Answer V))) : Prop :=
  ∃ t op r, .ret t op r ∈ es ∧ Sees k op r

theorem apply_sees {op : Call K V} {m : K → Option V} {k : K}
    (h : Sees k op ((mapObject K V).apply op m).2) : ((mapObject K V).apply op m).1 k ≠ none := by
  rcases op with j | ⟨j, v⟩ | j
  · obtain ⟨rfl, hv⟩ := h
    intro hn
    rw [apply_search] at hn
    exact hv (by simp [show m j = none from hn])
  · obtain rfl : j = k := h
    rcases hj : m j with _ | w
    · rw [apply_insert_none hj]; simp
    · rw [apply_insert_some hj]; simp [hj]
  · exact absurd h id

theorem apply_value {op : Call K V} {m : K → Option V} {k : K} (hop : ∀ v, op = .insert k v → v ≠ 0)
    (hm : m k ≠ some 0) : ((mapObject K V).apply op m).1 k ≠ some 0 := by
  rcases op with j | ⟨j, v⟩ | j
  · exact hm
  · rcases hj : m j with _ | w
    · rw [apply_insert_none hj]
      by_cases hk : k = j
      · subst hk
        simpa using hop v rfl
      · simpa [hk] using hm
    · rw [apply_insert_some hj]
      exact hm
  · rcases hj : m j with _ | w
    · rw [apply_remove_none hj]
      exact hm
    · rw [apply_remove_some hj]
      by_cases hk : k = j
      · subst hk; simp
      · simpa [hk] using hm

/-- The key never has the value 0, now or later. -/
structure NonZero (k : K) (a : Atomic Tid (Call K V) (Answer V) (K → Option V)) : Prop where
  value : a.state k ≠ some 0
  pending : ∀ t v, a.status t = .pending (.insert k v) → v ≠ 0

/-- Nobody removes the key: once seen, it stays. -/
structure Unremoved (k : K) (es : List (Event Tid (Call K V) (Answer V)))
    (a : Atomic Tid (Call K V) (Answer V) (K → Option V)) : Prop extends NonZero k a where
  remove : ∀ t, a.status t ≠ .pending (.remove k)
  present : (∃ t op r, (a.status t = .done op r ∨ .ret t op r ∈ es) ∧ Sees k op r) → a.state k ≠ none

/-- Thread `t` removes the key, which is present, and nobody else does. -/
structure Removable (k : K) (t : Tid) (a : Atomic Tid (Call K V) (Answer V) (K → Option V)) :
    Prop extends NonZero k a where
  others : ∀ u, u ≠ t → a.status u ≠ .pending (.remove k)
  due : (a.status t = .pending (.remove k) ∧ a.state k ≠ none) ∨
    ∃ v, v ≠ 0 ∧ a.status t = .done (.remove k) (.val v)

variable {k : K} {t : Tid} {e : Event Tid (Call K V) (Answer V)}
  {es : List (Event Tid (Call K V) (Answer V))}
  {a b : Atomic Tid (Call K V) (Answer V) (K → Option V)}

theorem NonZero.lin (h : NonZero k a) (hl : Atomic.Lin (mapObject K V) a b) : NonZero k b := by
  obtain ⟨hp⟩ := hl
  rename_i u op
  refine ⟨apply_value (fun v hv => h.pending u v (hv ▸ hp)) h.value, fun t v ht => ?_⟩
  by_cases hu : t = u
  · subst hu; simp at ht
  · exact h.pending t v (by simpa [hu] using ht)

omit [DecidableEq K] in
theorem NonZero.visible (h : NonZero k a) (he : ∀ u v, e = .call u (.insert k v) → v ≠ 0)
    (hv : Atomic.Visible a e b) : NonZero k b := by
  cases hv with
  | @call u op =>
    refine ⟨h.value, fun t v ht => ?_⟩
    by_cases hu : t = u
    · subst hu
      simp only [Atomic.set, Function.update_self, Status.pending.injEq] at ht
      exact he t v (by rw [ht])
    · exact h.pending t v (by simpa [Atomic.set, hu] using ht)
  | tau => exact h
  | @ret u op r =>
    refine ⟨h.value, fun t v ht => ?_⟩
    by_cases hu : t = u
    · subst hu; simp [Atomic.set] at ht
    · exact h.pending t v (by simpa [Atomic.set, hu] using ht)

theorem Unremoved.lin (h : Unremoved k es a) (hl : Atomic.Lin (mapObject K V) a b) :
    Unremoved k es b := by
  have hn := h.toNonZero.lin hl
  obtain ⟨hp⟩ := hl
  rename_i u op
  refine { hn with remove := fun t ht => ?_, present := ?_ }
  · by_cases hu : t = u
    · subst hu; simp at ht
    · exact h.remove t (by simpa [hu] using ht)
  · have hkeep : a.state k ≠ none → ((mapObject K V).apply op a.state).1 k ≠ none := by
      intro ha hnone
      obtain ⟨v, hv⟩ := Option.ne_none_iff_exists'.mp ha
      obtain ⟨rfl, -⟩ := apply_loss (r := ((mapObject K V).apply op a.state).2) rfl hv hnone
      exact h.remove u hp
    rintro ⟨t, op', r, ht, hs⟩
    rcases ht with ht | ht
    · by_cases hu : t = u
      · subst hu
        simp only [Function.update_self, Status.done.injEq] at ht
        obtain ⟨rfl, rfl⟩ := ht
        exact apply_sees hs
      · exact hkeep (h.present ⟨t, op', r, Or.inl (by simpa [hu] using ht), hs⟩)
    · exact hkeep (h.present ⟨t, op', r, Or.inr ht, hs⟩)

omit [DecidableEq K] in
theorem Unremoved.visible (h : Unremoved k es a) (he : ∀ u v, e = .call u (.insert k v) → v ≠ 0)
    (hr : ∀ u, e ≠ .call u (.remove k)) (hv : Atomic.Visible a e b) : Unremoved k (e :: es) b := by
  have hn := h.toNonZero.visible he hv
  cases hv with
  | @call u op =>
    refine { hn with remove := fun t ht => ?_, present := ?_ }
    · by_cases hu : t = u
      · subst hu
        simp only [Atomic.set, Function.update_self, Status.pending.injEq] at ht
        exact hr t (by rw [ht])
      · exact h.remove t (by simpa [Atomic.set, hu] using ht)
    · rintro ⟨t, op', r, ht, hs⟩
      refine h.present ⟨t, op', r, ?_, hs⟩
      rcases ht with ht | ht
      · by_cases hu : t = u
        · subst hu; simp [Atomic.set] at ht
        · exact Or.inl (by simpa [Atomic.set, hu] using ht)
      · exact Or.inr (by simpa using ht)
  | tau =>
    refine { hn with remove := h.remove, present := ?_ }
    rintro ⟨t, op', r, ht, hs⟩
    exact h.present ⟨t, op', r, by simpa using ht, hs⟩
  | @ret u op r hd =>
    refine { hn with remove := fun t ht => ?_, present := ?_ }
    · by_cases hu : t = u
      · subst hu; simp [Atomic.set] at ht
      · exact h.remove t (by simpa [Atomic.set, hu] using ht)
    · rintro ⟨t, op', r', ht, hs⟩
      rcases ht with ht | ht
      · by_cases hu : t = u
        · subst hu; simp [Atomic.set] at ht
        · exact h.present ⟨t, op', r', Or.inl (by simpa [Atomic.set, hu] using ht), hs⟩
      · rcases List.mem_cons.mp ht with heq | ht
        · cases heq
          exact h.present ⟨u, op, r, Or.inl hd, hs⟩
        · exact h.present ⟨t, op', r', Or.inr ht, hs⟩

theorem Removable.lin (h : Removable k t a) (hl : Atomic.Lin (mapObject K V) a b) :
    Removable k t b := by
  have hn := h.toNonZero.lin hl
  obtain ⟨hp⟩ := hl
  rename_i u op
  refine { hn with others := fun v hv ht => ?_, due := ?_ }
  · by_cases hu : v = u
    · subst hu; simp at ht
    · exact h.others v hv (by simpa [hu] using ht)
  · rcases h.due with ⟨ht, hs⟩ | ⟨v, hv, ht⟩
    · obtain ⟨v, hv⟩ := Option.ne_none_iff_exists'.mp hs
      by_cases hu : t = u
      · subst hu
        rw [hp] at ht
        cases ht
        rw [apply_remove_some hv]
        exact Or.inr ⟨v, fun h0 => h.value (h0 ▸ hv), by simp⟩
      · refine Or.inl ⟨by simpa [hu] using ht, fun hnone => ?_⟩
        obtain ⟨rfl, -⟩ := apply_loss (r := ((mapObject K V).apply op a.state).2) rfl hv hnone
        exact h.others u (Ne.symm hu) hp
    · refine Or.inr ⟨v, hv, ?_⟩
      by_cases hu : t = u
      · subst hu
        rw [hp] at ht
        cases ht
      · simpa [hu] using ht

omit [DecidableEq K] in
theorem Removable.visible (h : Removable k t a) (he : ∀ u v, e = .call u (.insert k v) → v ≠ 0)
    (hr : ∀ u, e ≠ .call u (.remove k)) (ht : ∀ op r, e ≠ .ret t op r)
    (hv : Atomic.Visible a e b) : Removable k t b := by
  have hn := h.toNonZero.visible he hv
  have hidle : a.status t ≠ .idle := by
    rcases h.due with ⟨h1, -⟩ | ⟨v, -, h1⟩ <;> simp [h1]
  cases hv with
  | @call u op hi =>
    have hu : t ≠ u := by rintro rfl; exact hidle hi
    refine { hn with others := fun v hv hp => ?_, due := ?_ }
    · by_cases hvu : v = u
      · subst hvu
        simp only [Atomic.set, Function.update_self, Status.pending.injEq] at hp
        exact hr v (by rw [hp])
      · exact h.others v hv (by simpa [Atomic.set, hvu] using hp)
    · simpa [Atomic.set, hu] using h.due
  | tau => exact h
  | @ret u op r hd =>
    have hu : t ≠ u := by rintro rfl; exact ht op r rfl
    refine { hn with others := fun v hv hp => ?_, due := ?_ }
    · by_cases hvu : v = u
      · subst hvu; simp [Atomic.set] at hp
      · exact h.others v hv (by simpa [Atomic.set, hvu] using hp)
    · simpa [Atomic.set, hu] using h.due

/-- A history in which nobody removes the key. -/
theorem unremoved_of_history (h : History (mapObject K V) es a)
    (hv : ∀ u v, .call u (.insert k v) ∈ es → v ≠ 0) (hr : ∀ u, .call u (.remove k) ∉ es) :
    Unremoved k es a := by
  induction h with
  | init =>
    refine ⟨⟨by simp [Atomic.initial, mapObject], by simp [Atomic.initial]⟩,
      by simp [Atomic.initial], ?_⟩
    rintro ⟨t, op, r, h, -⟩
    simp [Atomic.initial] at h
  | step _ hab ih =>
    have ha := ih (fun u v h => hv u v (List.mem_cons_of_mem _ h))
      fun u h => hr u (List.mem_cons_of_mem _ h)
    exact Atomic.Step.keeps Unremoved.lin Unremoved.lin (fun ha => ha.visible
      (fun u v h => hv u v (h ▸ List.mem_cons_self)) fun u h => hr u (h ▸ List.mem_cons_self)) ha hab

/-- **Once some call has shown the key to be present, and while nobody else
removes it, a `remove` does not return 0.** -/
theorem remove_of_observed {r : Answer V} {es₀ : List (Event Tid (Call K V) (Answer V))}
    (h : History (mapObject K V) (.ret t (.remove k) r :: (es ++ .call t (.remove k) :: es₀)) a)
    (hv : ∀ u v, .call u (.insert k v) ∈ es ++ es₀ → v ≠ 0)
    (hr : ∀ u, .call u (.remove k) ∉ es ++ es₀) (ht : ∀ op r, .ret t op r ∉ es)
    (ho : Observed k es₀) : r ≠ .val 0 := by
  have hmid : ∀ {a}, History (mapObject K V) (es ++ .call t (.remove k) :: es₀) a →
      Removable k t a := by
    clear h
    induction es with
    | nil =>
      rintro a (_ | ⟨h, hab⟩)
      have hu := unremoved_of_history h (by simpa using hv) (by simpa using hr)
      refine Atomic.Step.keeps Unremoved.lin Removable.lin (fun ha hvis => ?_) hu hab
      obtain ⟨u, op, r, hm, hs⟩ := ho
      have hn := ha.toNonZero.visible (fun u v h => by cases h) hvis
      have hp := ha.present ⟨u, op, r, Or.inr hm, hs⟩
      cases hvis with
      | call _ =>
        refine { hn with others := fun v hv h => ?_, due := Or.inl ⟨by simp [Atomic.set], hp⟩ }
        exact ha.remove v (by simpa [Atomic.set, hv] using h)
    | cons e es ih =>
      rintro a (_ | ⟨h, hab⟩)
      have ha := ih (fun u v h => hv u v (List.mem_cons_of_mem _ h))
        (fun u h => hr u (List.mem_cons_of_mem _ h))
        (fun op r h => ht op r (List.mem_cons_of_mem _ h)) h
      exact Atomic.Step.keeps Removable.lin Removable.lin (fun ha => ha.visible
        (fun u v h => hv u v (h ▸ List.mem_cons_self)) (fun u h => hr u (h ▸ List.mem_cons_self))
        fun op r h => ht op r (h ▸ List.mem_cons_self)) ha hab
  rcases h with _ | ⟨h, a₁, b₁, h1, h2, -⟩
  have hrem : Removable k t a₁ := by
    have ha := hmid h
    clear h2
    induction h1 with
    | refl => exact ha
    | tail _ hl ih => exact ih.lin hl
  rintro rfl
  cases h2 with
  | ret hd =>
    rcases hrem.due with ⟨h3, -⟩ | ⟨v, hv0, h3⟩ <;> rw [hd] at h3 <;> cases h3
    exact hv0 rfl

/-- A run in which a `remove` returns 0 in spite of that. -/
theorem not_linearizable_of_play {σ L ι : Type*} {P : Program Tid (Call K V) (Answer V) σ L ι}
    {ms : List (Move Tid (Call K V) ι)} {es₀ : List (Event Tid (Call K V) (Answer V))}
    (hplay : (P.play ([], P.initial) ms).map (fun q => q.1.map Prod.fst) =
      some (.ret t (.remove k) (.val 0) :: (es ++ .call t (.remove k) :: es₀)))
    (hpre : ∀ u op, .call u op ∈ ms → P.pre op)
    (hv : ∀ u v, .call u (.insert k v) ∈ es ++ es₀ → v ≠ 0)
    (hr : ∀ u, .call u (.remove k) ∉ es ++ es₀) (ht : ∀ op r, .ret t op r ∉ es)
    (ho : Observed k es₀) : ¬ HistoriesLinearizable (mapObject K V) P := by
  intro hlin
  obtain ⟨⟨es', c⟩, hplay, hev⟩ := Option.map_eq_some_iff.mp hplay
  obtain ⟨a, ha⟩ := hlin es' c (Program.play_run _ .init hpre hplay)
  rw [show es'.map Prod.fst = _ from hev] at ha
  exact remove_of_observed ha hv hr ht ho rfl

end present

end Ascylib
