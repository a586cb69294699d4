/-
# The table of array maps, under any interleaving

The buckets of `HashtableOptikArrayMap` have a fixed number of slots, so an
`insert` fails on a bucket that is full. The table is linearizable to the map
that refuses such an insert (`boundedTable`). If no bucket can get more keys than
it has slots, among the keys its clients use, it is linearizable to the plain
map. With no call running, `length` counts the keys that came and stayed.

Key definitions: `boundedTable`, `ArrayMapOptik.length`, `Hashtable.Room`.
Key theorem: `Hashtable.arraymap_table_linearizable`.
-/
import Ascylib.ArrayMapTable
import Ascylib.HashtableLinearizable

set_option linter.unusedSectionVars false

namespace Ascylib

open Concur

/-! ### Maps that refuse an insert -/

section

variable {Tid σ L ι K V : Type*} [DecidableEq Tid] [Fintype Tid] [DecidableEq K] [Zero V]
  [DecidableEq V]

/-- The object does what the map does, or refuses an insert. -/
def Refusing (O : Object (Call K V) (Answer V) (K → Option V)) : Prop :=
  O.init = (mapObject K V).init ∧ ∀ op m, O.apply op m = (mapObject K V).apply op m ∨
    (∃ k v, op = .insert k v) ∧ O.apply op m = (m, .flag false)

variable {O : Object (Call K V) (Answer V) (K → Option V)}

theorem Counted.refusing {n : ℤ} {a b : Atomic Tid (Call K V) (Answer V) (K → Option V)}
    (hO : Refusing O) (h : Counted n a) (hab : Atomic.Lin O a b) : Counted n b := by
  obtain ⟨hp⟩ := hab
  rename_i t op
  rcases hO.2 op a.state with he | ⟨⟨k, v, rfl⟩, he⟩
  · rw [he]
    exact h.lin (.lin hp)
  · rw [he]
    refine ⟨h.finite, h.value, fun u k v hu => ?_, ?_⟩
    · by_cases hut : u = t
      · subst hut; simp at hu
      · exact h.pending u k v (by simpa [hut] using hu)
    · rw [sum_gain_update, hp]
      simpa [gain_done, gain, Status.gain] using h.size

omit [Zero V] [DecidableEq K] in
/-- A call or a return. -/
theorem Counted.visible [Zero V] {es : Trace Tid (Call K V) (Answer V) σ L}
    {c : Config Tid (Call K V) σ L} {e : Event Tid (Call K V) (Answer V)}
    {a b : Atomic Tid (Call K V) (Answer V) (K → Option V)}
    (h : Counted ((inserts es : ℤ) - removes es) a) (hv : Atomic.Visible a e b)
    (hpre : ∀ t k v, e = .call t (.insert k v) → v ≠ 0) :
    Counted ((inserts ((e, c) :: es) : ℤ) - removes ((e, c) :: es)) b := by
  cases hv with
  | @call t op hidle =>
    refine ⟨h.finite, h.value, fun u k v hu => ?_, ?_⟩
    · by_cases hut : u = t
      · subst hut
        simp only [Atomic.set, Function.update_self, Status.pending.injEq] at hu
        exact hpre u k v (congrArg _ hu)
      · exact h.pending u k v (by simpa [Atomic.set, hut] using hu)
    · have := h.size
      simp only [Atomic.set]
      rw [sum_gain_update, hidle]
      simpa [inserts, removes, isInsert, isRemove, Status.gain] using this
  | tau => simpa [inserts, removes, isInsert, isRemove] using h
  | @ret t op r hd =>
    refine ⟨h.finite, h.value, fun u k v hu => ?_, ?_⟩
    · by_cases hut : u = t
      · subst hut; simp [Atomic.set] at hu
      · exact h.pending u k v (by simpa [Atomic.set, hut] using hu)
    · have hs := h.size
      simp only [Atomic.set]
      rw [sum_gain_update, hd, net_ret, gain_done,
        show Status.gain (.idle : Status (Call K V) (Answer V)) = 0 from rfl]
      linarith

/-- **With no call running, the number of keys is the number of successful
inserts less the number of successful removes**, also if inserts may be refused. -/
theorem size_of_refusing (hO : Refusing O) {P : Program Tid (Call K V) (Answer V) σ L ι} {ok} {abs}
    (hl : LinearizableIf O P ok abs) (hpre : ∀ k v, P.pre (.insert k v) → v ≠ 0) {es c}
    (hr : P.RunIf ok es c) (hidle : ∀ t, c.threads t = none) :
    ({k | abs c.shared k ≠ none}.ncard : ℤ) = inserts es - removes es := by
  obtain ⟨a, ha⟩ := hl es c hr
  have hcount : Counted ((inserts es : ℤ) - removes es) a := by
    clear hidle
    induction ha generalizing c with
    | init =>
      have h0 : O.init = fun _ => none := hO.1
      exact ⟨by simp [h0, Atomic.initial], by simp [h0, Atomic.initial], by simp [Atomic.initial],
        by simp [h0, inserts, removes, Status.gain, Atomic.initial]⟩
    | step _ hst _ ih =>
      cases hr with
      | step hr hst' _ =>
        refine hst.keeps (fun h => h.refusing hO) (fun h => h.refusing hO)
          (fun h hv => h.visible hv ?_) (ih hr)
        rintro t k v rfl
        cases hst' with | call _ hp => exact hpre k v hp
  have hs : ∑ t, Status.gain (a.status t) = 0 :=
    Finset.sum_eq_zero fun t _ => by rw [(ha.idle_iff hr t).mpr (hidle t)]; rfl
  have := hcount.size
  rwa [hs, add_zero, ha.state_eq hr] at this

end

/-! ### The bounded table -/

/-- The map whose buckets hold at most `size` keys: an insert into a full bucket
fails. -/
noncomputable def boundedTable {K β : Type*} (V : Type*) [DecidableEq K] [Zero V] (bucket : K → β)
    (size : ℕ) : Object (Call K V) (Answer V) (K → Option V) where
  init := fun _ => none
  apply
    | .insert k v, m =>
      if size ≤ {j | bucket j = bucket k ∧ m j ≠ none}.ncard then (m, .flag false)
      else (mapObject K V).apply (.insert k v) m
    | op, m => (mapObject K V).apply op m

namespace Hashtable

variable {T K V : Type*} {n size : ℕ} [DecidableEq K] [Zero V] {bucket : K → Fin n}

theorem refusing_bounded : Refusing (boundedMap size K V) := by
  refine ⟨rfl, fun op m => ?_⟩
  cases op with
  | insert k v =>
    by_cases h : size ≤ {j | m j ≠ none}.ncard
    · exact Or.inr ⟨⟨k, v, rfl⟩, if_pos h⟩
    · exact Or.inl (if_neg h)
  | search | remove => exact Or.inl rfl

/-- The keys of each bucket are its own. -/
def Own (bucket : K → Fin n) (m : Fin n → K → Option V) : Prop :=
  ∀ b k, m b k ≠ none → bucket k = b

/-- A call adds its own key only. -/
theorem apply_ne_none {op : Call K V} {m : K → Option V} {k : K}
    (h : ((mapObject K V).apply op m).1 k ≠ none) : m k ≠ none ∨ k = op.key := by
  refine or_iff_not_imp_left.mpr fun hm => ?_
  obtain ⟨w, hw⟩ := Option.ne_none_iff_exists'.mp h
  obtain ⟨rfl, -⟩ := apply_gain (m := m) rfl (not_not.mp hm) hw
  rfl

theorem Refusing.apply_ne_none {O : Object (Call K V) (Answer V) (K → Option V)} (hO : Refusing O)
    {op : Call K V} {m : K → Option V} {k : K} (h : (O.apply op m).1 k ≠ none) :
    m k ≠ none ∨ k = op.key := by
  rcases hO.2 op m with he | ⟨-, he⟩
  · rw [he] at h
    exact Hashtable.apply_ne_none h
  · rw [he] at h
    exact Or.inl h

/-- No call brings a key to another bucket. -/
theorem Own.apply (op : Call K V) {m : Fin n → K → Option V} (h : Own bucket m) :
    Own bucket
      ((Object.sides (fun _ => boundedMap size K V) fun op => bucket op.key).apply op m).1 := by
  intro b k hk
  by_cases hb : b = bucket op.key
  · subst hb
    simp only [Object.sides, Function.update_self] at hk
    rcases Refusing.apply_ne_none refusing_bounded hk with hk | rfl
    · exact h _ k hk
    · rfl
  · simp only [Object.sides, Function.update_of_ne hb] at hk
    exact h b k hk

/-- A call does to the bounded table what it does to the map of its bucket. -/
theorem bounded_mapAt (op : Call K V) {m : Fin n → K → Option V} (h : Own bucket m) :
    (boundedTable V bucket size).apply op (mapAt bucket m) =
      (mapAt bucket
        ((Object.sides (fun _ => boundedMap size K V) fun op => bucket op.key).apply op m).1,
        ((Object.sides (fun _ => boundedMap size K V) fun op => bucket op.key).apply op m).2) := by
  cases op with
  | search k => exact apply_mapAt (.search k) m
  | remove k => exact apply_mapAt (.remove k) m
  | insert k v =>
    have hkeys : {j | bucket j = bucket k ∧ mapAt bucket m j ≠ none} =
        {j | m (bucket k) j ≠ none} := by
      ext j
      refine ⟨fun hj => ?_, fun hj => ?_⟩
      · have hm : m (bucket j) j ≠ none := hj.2
        rwa [hj.1] at hm
      · have hjk : bucket j = bucket k := h _ j hj
        exact ⟨hjk, by rw [mapAt, hjk]; exact hj⟩
    by_cases hf : size ≤ {j | m (bucket k) j ≠ none}.ncard
    · have ht : (boundedTable V bucket size).apply (.insert k v) (mapAt bucket m) =
          (mapAt bucket m, .flag false) := if_pos (by rwa [hkeys])
      simp only [ht, Object.sides, Call.key, bounded_insert_full hf, Function.update_eq_self]
    · have ht : (boundedTable V bucket size).apply (.insert k v) (mapAt bucket m) =
          (mapObject K V).apply (.insert k v) (mapAt bucket m) := if_neg (by rwa [hkeys])
      have hb : (boundedMap size K V).apply (.insert k v) (m (bucket k)) =
          (mapObject K V).apply (.insert k v) (m (bucket k)) := if_neg hf
      rw [ht, apply_mapAt]
      simp only [Object.sides, Call.key, hb]

/-- Room for all keys of `R` in their buckets. -/
def Room (bucket : K → Fin n) (size : ℕ) (R : Set K) : Prop :=
  ∀ b, {k | k ∈ R ∧ bucket k = b}.Finite ∧ {k | k ∈ R ∧ bucket k = b}.ncard ≤ size

/-- Where there is room no insert is refused. -/
theorem bounded_of_room {R : Set K} (hR : Room bucket size R) {op : Call K V} {m : K → Option V}
    (hop : op.key ∈ R) (hm : ∀ k, m k ≠ none → k ∈ R) :
    (boundedTable V bucket size).apply op m = (mapObject K V).apply op m := by
  cases op with
  | insert k v =>
    by_cases hf : size ≤ {j | bucket j = bucket k ∧ m j ≠ none}.ncard
    · -- then the key is there already
      have hsub : {j | bucket j = bucket k ∧ m j ≠ none} ⊆ {j | j ∈ R ∧ bucket j = bucket k} :=
        fun j hj => ⟨hm j hj.2, hj.1⟩
      have heq := Set.eq_of_subset_of_ncard_le hsub ((hR (bucket k)).2.trans hf) (hR (bucket k)).1
      have hk : k ∈ {j | bucket j = bucket k ∧ m j ≠ none} := heq ▸ ⟨hop, rfl⟩
      obtain ⟨w, hw⟩ := Option.ne_none_iff_exists'.mp hk.2
      exact (if_pos hf).trans (apply_insert_some hw).symm
    · exact if_neg hf
  | search | remove => rfl

end Hashtable

/-! ### The runs -/

namespace ArrayMapOptik

variable {size : ℕ} {K V : Type*} [DecidableEq K] [Zero K]

/-- `count += (map->array[i].key != 0)` -/
def length (s : ArrayMap size K V) : ℕ :=
  (List.finRange size).foldl (fun count i => count + if s.key i ≠ 0 then 1 else 0) 0

theorem length_eq (s : ArrayMap size K V) : length s = {i | s.key i ≠ 0}.ncard := by
  have hfold : ∀ (l : List (Fin size)) (n : ℕ),
      l.foldl (fun count i => count + if s.key i ≠ 0 then 1 else 0) n =
        n + l.countP fun i => s.key i ≠ 0 := by
    intro l
    induction l with
    | nil => exact fun n => rfl
    | cons i l ih =>
      intro n
      rw [List.foldl_cons, ih, List.countP_cons]
      simp only [decide_eq_true_eq]
      omega
  rw [length, hfold, Nat.zero_add, Set.ncard_eq_toFinset_card', List.countP_eq_length_filter,
    ← List.toFinset_card_of_nodup ((List.nodup_finRange size).filter _)]
  congr 1
  ext i
  simp

variable [Zero V]

theorem Wf.length_eq {S : Set (Slots size K V)} {s : Slots size K V} (w : Wf S s) :
    length s.1 = {k | absMap s k ≠ none}.ncard := by
  rw [ArrayMapOptik.length_eq, w.ncard]

end ArrayMapOptik

namespace Hashtable

open ArrayMapOptik

variable {T K V : Type*} {n size : ℕ} [DecidableEq T] [DecidableEq K] [Zero K] [Zero V]

/-- The slots of each bucket stand for the keys of the map that are its own. -/
def Stood (bucket : K → Fin n) (s : Fin n → ArrayMap size K V) (m : K → Option V) : Prop :=
  ∀ b, Distinct (s b) ∧ Stands (s b) fun k => if bucket k = b then m k else none

/-- The calls use keys of `R`, and no word is taken 2^63 times. -/
def FewOf (R : Set K) (es : Trace T (Call K V) (Answer V) (ArrayMap size K V) (Pc size V))
    (c : Config T (Call K V) (ArrayMap size K V) (Pc size V)) (e : Event T (Call K V) (Answer V))
    (c' : Config T (Call K V) (ArrayMap size K V) (Pc size V)) : Prop :=
  Few es c e c' ∧ ∀ t op, e = .call t op → op.key ∈ R

/-- The table of array maps, with what is pending in each. -/
abbrev pendingThreads (size : ℕ) (T V : Type*) [DecidableEq T] [Zero V] (bucket : K → Fin n) :=
  Program.sides (fun _ => withPending size T K V) fun op : Call K V => bucket op.key

section run

variable [Fintype T] {bucket : K → Fin n}
  {ok : Trace T (Call K V) (Answer V) (ArrayMap size K V) (Pc size V) →
    Config T (Call K V) (ArrayMap size K V) (Pc size V) → Event T (Call K V) (Answer V) →
    Config T (Call K V) (ArrayMap size K V) (Pc size V) → Prop}
  (hok : ∀ es c e c', ok es c e c' → Few es c e c')

include hok

theorem sides_linearizable :
    LinearizableIf (Object.sides (fun _ => boundedMap size K V) fun op => bucket op.key)
      (pendingThreads size T V bucket) (sidesIf (fun op => bucket op.key) fun _ => Ghost.lift ok)
      fun s b => absMap (s b) :=
  linearizable_sides fun _ => ArrayMapOptik.linearizable.mono fun _ _ _ _ h => hok _ _ _ _ h

theorem table_linearizable :
    LinearizableIf (boundedTable V bucket size) (pendingThreads size T V bucket)
      (sidesIf (fun op => bucket op.key) fun _ => Ghost.lift ok)
      fun s => mapAt bucket fun b => absMap (s b) :=
  (sides_linearizable hok).map (J := fun _ => True) (I := Own bucket) (fun op _ _ h => h.apply op)
    (fun op _ _ h => bounded_mapAt op h) (fun _ _ _ => trivial) (fun _ _ h => absurd rfl h) rfl

theorem bounded_run
    {es : Trace T (Call K V) (Answer V) (Fin n → Slots size K V) (Fin n × Pc size V)}
    {c : Config T (Call K V) (Fin n → Slots size K V) (Fin n × Pc size V)}
    (hr : (pendingThreads size T V bucket).RunIf
      (sidesIf (fun op => bucket op.key) fun _ => Ghost.lift ok) es c) (b : Fin n) :
    (withPending size T K V).RunIf (Ghost.lift Few) (part (fun op => bucket op.key) b es)
      (c.part b) :=
  (part_run hr b).mono fun _ _ _ _ h => hok _ _ _ _ h

theorem stood_of_run
    {es : Trace T (Call K V) (Answer V) (Fin n → Slots size K V) (Fin n × Pc size V)}
    {c : Config T (Call K V) (Fin n → Slots size K V) (Fin n × Pc size V)}
    (hr : (pendingThreads size T V bucket).RunIf
      (sidesIf (fun op => bucket op.key) fun _ => Ghost.lift ok) es c) :
    Stood bucket (fun b => (c.shared b).1) (mapAt bucket fun b => absMap (c.shared b)) := by
  obtain ⟨a, ha⟩ := sides_linearizable hok es c hr
  have hown : Own bucket a.state := (ha.sound (J := fun _ => True) (I := Own bucket) hr
    (fun _ _ _ => trivial) (fun _ _ h => absurd rfl h) fun op _ _ h => h.apply op).1
  rw [ha.state_eq hr] at hown
  intro b
  have hw := (outline.holds (bounded_run hok hr b)).glob.1
  refine ⟨hw.distinct, ?_⟩
  have habs : (fun k => if bucket k = b then mapAt bucket (fun b => absMap (c.shared b)) k
      else none) = absMap (c.shared b) := by
    funext k
    by_cases hk : bucket k = b
    · subst hk
      exact if_pos rfl
    · rw [if_neg hk]
      by_contra h
      exact hk (hown b k (Ne.symm h))
  rw [habs]
  exact hw.stands

/-- The table with room is a map for the calls that use keys of `R`. -/
theorem table_linearizable_of_room {R : Set K} (hR : Room bucket size R)
    (hkey : ∀ es c t op c', ok es c (.call t op) c' → op.key ∈ R) :
    LinearizableIf (mapObject K V) (pendingThreads size T V bucket)
      (sidesIf (fun op => bucket op.key) fun _ => Ghost.lift ok)
      fun s => mapAt bucket fun b => absMap (s b) := by
  have hmap : LinearizableIf (mapObject K V) (pendingThreads size T V bucket)
      (sidesIf (fun op => bucket op.key) fun _ => Ghost.lift ok)
      fun s => id (mapAt bucket fun b => absMap (s b)) := by
    refine (table_linearizable hok).map (J := fun op => op.key ∈ R)
      (I := fun m => ∀ k, m k ≠ none → k ∈ R) (fun op m hop hm k hk => ?_)
      (fun op m hop hm => ?_) ?_ (fun k h => absurd rfl h) rfl
    · rw [bounded_of_room hR hop hm] at hk
      rcases Hashtable.apply_ne_none hk with hk | rfl
      · exact hm k hk
      · exact hop
    · rw [bounded_of_room hR hop hm]
      rfl
    · intro es c t op c' _ _ hcall
      exact hkey _ _ t op _ (hcall (bucket op.key) rfl)
  exact hmap

end run

/-- With no call running, the slots in use are the keys that came and stayed. -/
theorem length_of_threads [Fintype T] [DecidableEq V] {bucket : K → Fin n}
    {es : Trace T (Call K V) (Answer V) (Fin n → ArrayMap size K V) (Fin n × Pc size V)}
    {c : Config T (Call K V) (Fin n → ArrayMap size K V) (Fin n × Pc size V)}
    (hr : (threads (fun _ => program size T K V) bucket).RunIf
      (sidesIf (fun op => bucket op.key) fun _ => Few) es c) (hidle : ∀ t, c.threads t = none)
    (fuel : ℕ) : Hashtable.length (fun s _ => some (ArrayMapOptik.length s)) c.shared fuel =
      some (BitVec.ofInt 32 (inserts es - removes es)) := by
  obtain ⟨es', c', hr', rfl, rfl⟩ := Program.RunIf.ghost_sides pending hr
  have hi : inserts (es'.map fun p => (p.1, Ghost.eraseSides p.2)) = inserts es' :=
    List.countP_map
  have hd : removes (es'.map fun p => (p.1, Ghost.eraseSides p.2)) = removes es' :=
    List.countP_map
  have hcount : ∀ (b : Fin n) es c, (withPending size T K V).RunIf (Ghost.lift Few) es c →
      Counts absMap (fun s _ => some (ArrayMapOptik.length s.1)) c.shared := fun _ _ _ hr =>
    ⟨0, fun _ _ => congrArg some (outline.holds hr).glob.1.length_eq⟩
  obtain ⟨m, hm⟩ := length_of_run (fun _ _ _ => size_of_refusing refusing_bounded
    ArrayMapOptik.linearizable fun k v h => h.2 k v rfl) hcount hr' hidle
  rw [hi, hd]
  exact hm m le_rfl

/-- `buckets[addr]`, for a key with this hash. -/
def arrayBucket (h1 : 1 ≤ n) (h2 : n < 2 ^ 31) (hash : K → CInt) (key : K) : Fin n :=
  ⟨hashtableOptikArrayMap.bucketOf n (hash key), (masks_arrayMap.addr_lt h1 h2 (hash key)).1⟩

/-- **The table of array maps is a map whose buckets are bounded**, under any
interleaving, and a map if no bucket can get more keys than slots. With no call
running `length` tells how many keys came and stayed. -/
theorem arraymap_table_linearizable [Fintype T] [DecidableEq V] (hash : K → CInt) (h1 : 1 ≤ n)
    (h2 : n < 2 ^ 31) :
    HistoriesLinearizableIf (boundedTable V (arrayBucket h1 h2 hash) size)
        (threads (fun _ => program size T K V) (arrayBucket h1 h2 hash))
        (sidesIf (fun op => arrayBucket h1 h2 hash op.key) fun _ => Few)
        (Stood (arrayBucket h1 h2 hash)) ∧
      (∀ R, Room (arrayBucket h1 h2 hash) size R → HistoriesLinearizableIf (mapObject K V)
        (threads (fun _ => program size T K V) (arrayBucket h1 h2 hash))
        (sidesIf (fun op => arrayBucket h1 h2 hash op.key) fun _ => FewOf R)
        (Stood (arrayBucket h1 h2 hash))) ∧
      ∀ es c, (threads (fun _ => program size T K V) (arrayBucket h1 h2 hash)).RunIf
          (sidesIf (fun op => arrayBucket h1 h2 hash op.key) fun _ => Few) es c →
        (∀ t, c.threads t = none) → ∀ fuel,
          Hashtable.length (fun s _ => some (ArrayMapOptik.length s)) c.shared fuel =
            some (BitVec.ofInt 32 (inserts es - removes es)) := by
  refine ⟨?_, fun R hR => ?_, fun es c hr hidle fuel => length_of_threads hr hidle fuel⟩
  · exact (table_linearizable fun _ _ _ _ h => h).erase_sides
      fun hr => stood_of_run (fun _ _ _ _ h => h) hr
  · exact (table_linearizable_of_room (fun _ _ _ _ h => h.1) hR
      fun _ _ t op _ h => h.2 t op rfl).erase_sides fun hr => stood_of_run (fun _ _ _ _ h => h.1) hr

end Hashtable

namespace ArrayMapTable

variable {z : Sizes}

/-- Sizes that have room have it for all keys of the test. -/
theorem room_of_hasRoom (hz : z.Accepted) (h : HasRoom z) :
    Hashtable.Room (Hashtable.arrayBucket hz.buckets.1 hz.buckets.2 id) z.capacity
      {k | z.InRange k} := by
  intro b
  have hb : {k | k ∈ {k | z.InRange k} ∧ Hashtable.arrayBucket hz.buckets.1 hz.buckets.2 id k = b} =
      {k | z.InRange k ∧ bucketOf z k = b} := by
    ext k
    exact and_congr Iff.rfl Fin.ext_iff
  rw [hb]
  exact ⟨finite_keys _, h b⟩

end ArrayMapTable

/-- 1024 keys of 2048 in 512 buckets of 4 slots, and three threads. -/
theorem Hashtable.arraymap_table_linearizable_powers :
    let z : Sizes := ⟨1024, 2048, 2⟩
    ∃ h1 : 1 ≤ z.maxhtlength.toNat, ∃ h2 : z.maxhtlength.toNat < 2 ^ 31,
      HistoriesLinearizableIf (mapObject CInt ℕ)
        (threads (fun _ => ArrayMapOptik.program z.capacity (Fin 3) CInt ℕ) (arrayBucket h1 h2 id))
        (sidesIf (fun op => arrayBucket h1 h2 id op.key) fun _ => FewOf {k | z.InRange k})
        (Stood (arrayBucket h1 h2 id)) := by
  have hz : (⟨1024, 2048, 2⟩ : Sizes).Accepted :=
    ⟨by decide, by decide, by decide, by decide, by decide⟩
  have hroom := ArrayMapTable.hasRoom_of_pow hz (m := 9) (by decide) (by decide)
  exact ⟨hz.buckets.1, hz.buckets.2,
    (arraymap_table_linearizable id hz.buckets.1 hz.buckets.2).2.1 _
      (ArrayMapTable.room_of_hasRoom hz hroom)⟩

end Ascylib
