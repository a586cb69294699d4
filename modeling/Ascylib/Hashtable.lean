/-
# The tables of buckets

`hashtable_harris.h`, `hashtable_copy.h`, `hashtable_optik.h`,
`hashtable_optik_gl.h` and `hashtable_pugh.h` under `src/algorithms/`, for keys
of type `int`: an array of buckets, each a search structure of its own. A call
goes to the bucket at `hash(key) & hash`, and `length` adds the lengths of all
buckets. The tables differ in the type of the number of buckets, and
`HashtablePugh` masks the key itself.

`hash` is one less than the number of buckets, whether that is a power of two
or not. Where it is not, some buckets stay empty, but every index is the index
of a bucket, and every key has one bucket. So the table behaves like a finite
map if each of its buckets does. `length` is an `int`: it counts modulo `2 ^ 32`.

Key definitions: `TableClass`, `Hashtable.apply`, `finiteMap`.
Key theorem: `Hashtable.tables_behave`.
-/
import Ascylib.Concur.Machine
import Ascylib.Search
import Mathlib.Algebra.BigOperators.Fin
import Mathlib.Data.BitVec

set_option linter.unusedSectionVars false

namespace Ascylib

open Concur

/-- `int` -/
abbrev CInt := BitVec 32

/-- `size_t` -/
abbrev SizeT := BitVec 64

theorem finite_keys (S : Set CInt) : S.Finite :=
  have : Finite CInt := Finite.of_injective BitVec.toFin fun _ _ h => BitVec.toFin_inj.mp h
  Set.toFinite S

/-- `KeyHasher<int>::hash` -/
def KeyHasher.hash (key : CInt) : CInt := key

/-- What a class of tables makes of the number of buckets and of a key. -/
structure TableClass where
  /-- the number that `length` and the constructor go up to -/
  maxhtlength : ℕ → ℕ
  /-- the field `hash` -/
  hash : ℕ → SizeT
  /-- `int addr` -/
  addr : CInt → SizeT → CInt

/-- `KEY_HASHER::hash(key) & hash`, where the `int` becomes a `size_t`, and the
word an `int`. -/
def hashedAddr (key : CInt) (hash : SizeT) : CInt :=
  ((KeyHasher.hash key).signExtend 64 &&& hash).setWidth 32

/-- `unsigned int maxhtlength`, from an `int`. -/
def hashtableHarris : TableClass where
  maxhtlength n := (BitVec.ofNat 32 n).toNat
  hash n := (BitVec.ofNat 32 n - 1).setWidth 64
  addr := hashedAddr

/-- `size_t num_buckets` -/
def hashtableCopy : TableClass where
  maxhtlength n := (BitVec.ofNat 64 n).toNat
  hash n := BitVec.ofNat 64 n - 1
  addr := hashedAddr

/-- `int maxhtlength` -/
def hashtableOptik : TableClass where
  maxhtlength n := (BitVec.ofNat 32 n).toInt.toNat
  hash n := (BitVec.ofNat 32 n - 1).signExtend 64
  addr := hashedAddr

/-- `int maxhtlength` -/
def hashtableOptikGL : TableClass where
  maxhtlength n := (BitVec.ofNat 32 n).toInt.toNat
  hash n := (BitVec.ofNat 32 n - 1).signExtend 64
  addr := hashedAddr

/-- `int maxhtlength`, and `addr = key & hash`. -/
def hashtablePugh : TableClass where
  maxhtlength n := (BitVec.ofNat 32 n).toInt.toNat
  hash n := (BitVec.ofNat 32 n - 1).signExtend 64
  addr key hash := (key.signExtend 64 &&& hash).setWidth 32

/-- The tables of buckets. -/
def tableClasses : List TableClass :=
  [hashtableHarris, hashtableCopy, hashtableOptik, hashtableOptikGL, hashtablePugh]

/-! ### The index -/

/-- For a number of buckets that is an `int` the classes agree. -/
structure TableClass.Masks (C : TableClass) : Prop where
  maxhtlength : ∀ {n : ℕ}, n < 2 ^ 31 → C.maxhtlength n = n
  hash : ∀ {n : ℕ}, 1 ≤ n → n < 2 ^ 31 → (C.hash n).toNat = n - 1
  addr : C.addr = hashedAddr

theorem toNat_pred {n : ℕ} (h1 : 1 ≤ n) (h2 : n < 2 ^ 31) :
    (BitVec.ofNat 32 n - 1).toNat = n - 1 := by
  have h : (1 : BitVec 32).toNat = 1 := rfl
  rw [BitVec.toNat_sub, BitVec.toNat_ofNat, h]
  omega

theorem toNat_signExtend_pred {n : ℕ} (h1 : 1 ≤ n) (h2 : n < 2 ^ 31) :
    ((BitVec.ofNat 32 n - 1).signExtend 64).toNat = n - 1 := by
  have hp := toNat_pred h1 h2
  have hmsb : (BitVec.ofNat 32 n - 1).msb = false := by
    rw [BitVec.msb_eq_decide, hp]
    simp only [decide_eq_false_iff_not, not_le]
    omega
  rw [BitVec.signExtend_eq_setWidth_of_msb_false hmsb, BitVec.toNat_setWidth, hp]
  omega

theorem toInt_ofNat {n : ℕ} (h : n < 2 ^ 31) : (BitVec.ofNat 32 n).toInt = n := by
  have hn : (BitVec.ofNat 32 n).toNat = n := Nat.mod_eq_of_lt (by omega)
  rw [BitVec.toInt_eq_toNat_of_lt (by omega), hn]

theorem masks {C : TableClass} (h : C ∈ tableClasses) : C.Masks := by
  have hint : ∀ {n : ℕ}, n < 2 ^ 31 → (BitVec.ofNat 32 n).toInt.toNat = n := by
    intro n hn
    rw [toInt_ofNat hn]
    rfl
  simp only [tableClasses, List.mem_cons, List.not_mem_nil, or_false] at h
  rcases h with rfl | rfl | rfl | rfl | rfl
  · refine ⟨fun hn => ?_, fun h1 h2 => ?_, rfl⟩
    · exact Nat.mod_eq_of_lt (by omega)
    · change ((BitVec.ofNat 32 _ - 1).setWidth 64).toNat = _
      rw [BitVec.toNat_setWidth, toNat_pred h1 h2]
      omega
  · refine ⟨fun hn => ?_, fun h1 h2 => ?_, rfl⟩
    · exact Nat.mod_eq_of_lt (by omega)
    · change (BitVec.ofNat 64 _ - 1).toNat = _
      have h : (1 : BitVec 64).toNat = 1 := rfl
      rw [BitVec.toNat_sub, BitVec.toNat_ofNat, h]
      omega
  · exact ⟨hint, toNat_signExtend_pred, rfl⟩
  · exact ⟨hint, toNat_signExtend_pred, rfl⟩
  · exact ⟨hint, toNat_signExtend_pred, rfl⟩

/-- The bucket of a key. -/
def TableClass.bucketOf (C : TableClass) (n : ℕ) (key : CInt) : ℕ := (C.addr key (C.hash n)).toNat

/-- Every index is the index of a bucket. -/
theorem TableClass.Masks.addr_lt {C : TableClass} (hC : C.Masks) {n : ℕ} (h1 : 1 ≤ n)
    (h2 : n < 2 ^ 31) (key : CInt) : C.bucketOf n key < n ∧
      (C.addr key (C.hash n)).toInt = C.bucketOf n key := by
  have hlt : C.bucketOf n key < n := by
    have hle : ((KeyHasher.hash key).signExtend 64 &&& C.hash n).toNat ≤ n - 1 := by
      rw [BitVec.toNat_and, ← hC.hash h1 h2]
      exact Nat.and_le_right
    rw [bucketOf, hC.addr, hashedAddr, BitVec.toNat_setWidth]
    exact lt_of_le_of_lt (Nat.mod_le _ _) (by omega)
  refine ⟨hlt, BitVec.toInt_eq_toNat_of_lt ?_⟩
  change 2 * C.bucketOf n key < 2 ^ 32
  omega

/-! ### The tables -/

/-- The calls of a table, and of a bucket. -/
inductive TableCall (V : Type*) where
  | call (op : Call CInt V)
  | length

/-- What they return; `length` returns an `int`. -/
inductive TableAnswer (V : Type*) where
  | answer (r : Answer V)
  | length (count : CInt)

/-- A table of buckets `β`. -/
structure Hashtable (β : Type*) where
  maxhtlength : ℕ
  hash : SizeT
  buckets : List β

namespace Hashtable

variable {β V : Type*} [Zero V]

/-- `buckets[addr]`, if it exists. -/
def bucketAt (t : Hashtable β) (addr : CInt) : Option β :=
  if addr.toInt < 0 then none else t.buckets[addr.toInt.toNat]?

/-- A call of the bucket at `addr`. -/
def callAt (B : Machine (TableCall V) (TableAnswer V) β) (op : TableCall V) (addr : CInt)
    (t : Hashtable β) : Option (Hashtable β × TableAnswer V) :=
  match t.bucketAt addr with
  | none => none
  | some b => (B.apply op b).map fun q =>
      ({ t with buckets := t.buckets.set addr.toInt.toNat q.1 }, q.2)

/-- `count += buckets[i]->length()` -/
def addLength (B : Machine (TableCall V) (TableAnswer V) β) (q : Hashtable β × CInt) (i : ℕ) :
    Option (Hashtable β × CInt) :=
  match callAt B .length (BitVec.ofNat 32 i) q.1 with
  | some (t, .length c) => some (t, q.2 + c)
  | _ => none

/-- `search`, `insert` and `remove` go to one bucket, and `length` to all. -/
def apply (C : TableClass) (B : Machine (TableCall V) (TableAnswer V) β) :
    TableCall V → Hashtable β → Option (Hashtable β × TableAnswer V)
  | .call op, t => callAt B (.call op) (C.addr op.key t.hash) t
  | .length, t => ((List.range t.maxhtlength).foldlM (addLength B) (t, 0)).map fun q =>
      (q.1, .length q.2)

/-- The table that the constructor makes with `n` buckets. -/
def table (C : TableClass) (n : ℕ) (B : Machine (TableCall V) (TableAnswer V) β) :
    Machine (TableCall V) (TableAnswer V) (Hashtable β) where
  init := ⟨C.maxhtlength n, C.hash n, List.replicate (C.maxhtlength n) B.init⟩
  apply := apply C B

/-- The number of keys. -/
noncomputable def keyCount (m : CInt → Option V) : ℕ := {k | m k ≠ none}.ncard

/-- The finite map with `length`. -/
noncomputable def finiteMap (V : Type*) [Zero V] :
    Machine (TableCall V) (TableAnswer V) (CInt → Option V) where
  init := fun _ => none
  apply
    | .call op, m =>
      some (((mapObject CInt V).apply op m).1, .answer ((mapObject CInt V).apply op m).2)
    | .length, m => some (m, .length (BitVec.ofNat 32 (keyCount m)))

/-! ### The map of one bucket -/

/-- The keys that belong to bucket `i`. -/
def share (C : TableClass) (n : ℕ) (m : CInt → Option V) (i : ℕ) : CInt → Option V :=
  fun k => if C.bucketOf n k = i then m k else none

section share

variable {C : TableClass} {n i : ℕ} {m : CInt → Option V} {k : CInt} {op : Call CInt V}

theorem share_self (h : C.bucketOf n k = i) : share C n m i k = m k := if_pos h

theorem share_update {v : Option V} (h : C.bucketOf n k = i) :
    share C n (Function.update m k v) i = Function.update (share C n m i) k v := by
  funext j
  by_cases hj : j = k
  · subst hj
    rw [share_self h, Function.update_self, Function.update_self]
  · simp only [share, Function.update_of_ne hj]

theorem share_update_of_ne {v : Option V} (h : C.bucketOf n k ≠ i) :
    share C n (Function.update m k v) i = share C n m i := by
  funext j
  by_cases hj : j = k
  · subst hj
    simp only [share, if_neg h]
  · simp only [share, Function.update_of_ne hj]

/-- A call does to the share of its bucket what it does to the map. -/
theorem apply_share (h : C.bucketOf n op.key = i) :
    (mapObject CInt V).apply op (share C n m i) =
      (share C n ((mapObject CInt V).apply op m).1 i, ((mapObject CInt V).apply op m).2) := by
  have hk : share C n m i op.key = m op.key := share_self h
  cases op with
  | search k =>
    have hk : share C n m i k = m k := hk
    simp only [mapObject, hk]
  | insert k v =>
    have hk : share C n m i k = m k := hk
    have h : C.bucketOf n k = i := h
    rcases hm : m k with _ | w
    · rw [apply_insert_none (hk.trans hm), apply_insert_none hm]
      exact congrArg (·, _) (share_update h).symm
    · rw [apply_insert_some (hk.trans hm), apply_insert_some hm]
  | remove k =>
    have hk : share C n m i k = m k := hk
    have h : C.bucketOf n k = i := h
    rcases hm : m k with _ | w
    · rw [apply_remove_none (hk.trans hm), apply_remove_none hm]
    · rw [apply_remove_some (hk.trans hm), apply_remove_some hm]
      exact congrArg (·, _) (share_update h).symm

/-- And nothing to the shares of the others. -/
theorem share_apply_of_ne (h : C.bucketOf n op.key ≠ i) :
    share C n ((mapObject CInt V).apply op m).1 i = share C n m i := by
  cases op with
  | search k => rfl
  | insert k v =>
    rcases hm : m k with _ | w
    · rw [apply_insert_none hm]
      exact share_update_of_ne h
    · rw [apply_insert_some hm]
  | remove k =>
    rcases hm : m k with _ | w
    · rw [apply_remove_none hm]
    · rw [apply_remove_some hm]
      exact share_update_of_ne h

/-- The keys of one bucket more. -/
theorem ncard_lt_succ (C : TableClass) (n : ℕ) (m : CInt → Option V) (i : ℕ) :
    {k | m k ≠ none ∧ C.bucketOf n k < i + 1}.ncard =
      {k | m k ≠ none ∧ C.bucketOf n k < i}.ncard + keyCount (share C n m i) := by
  have hset : {k | m k ≠ none ∧ C.bucketOf n k < i + 1} =
      {k | m k ≠ none ∧ C.bucketOf n k < i} ∪ {k | share C n m i k ≠ none} := by
    ext k
    simp only [share, Set.mem_ofPred_eq, Set.mem_union]
    by_cases hk : C.bucketOf n k = i
    · simp [hk]
    · have : C.bucketOf n k < i + 1 ↔ C.bucketOf n k < i := by omega
      simp [hk, this]
  have hdisj : Disjoint {k | m k ≠ none ∧ C.bucketOf n k < i} {k | share C n m i k ≠ none} := by
    rw [Set.disjoint_left]
    rintro k ⟨-, hlt⟩ hk
    have hk : share C n m i k ≠ none := hk
    rw [share, if_neg (Nat.ne_of_lt hlt)] at hk
    exact hk rfl
  rw [hset, Set.ncard_union_eq hdisj (finite_keys _) (finite_keys _), keyCount]

end share

/-! ### The table and the map -/

/-- Every bucket is where a finite map would be after the calls that went to it:
its state stands for the keys that belong to it. -/
structure Sim (C : TableClass) (n : ℕ) (B : Machine (TableCall V) (TableAnswer V) β)
    (pre : TableCall V → Prop) (t : Hashtable β) (m : CInt → Option V) : Prop where
  maxhtlength : t.maxhtlength = n
  hash : t.hash = C.hash n
  length : t.buckets.length = n
  twin : ∀ i b, t.buckets[i]? = some b → B.Twin (finiteMap V) pre b (share C n m i)

section sim

variable {C : TableClass} {n : ℕ} {B : Machine (TableCall V) (TableAnswer V) β}
  {pre : TableCall V → Prop} {t : Hashtable β} {m : CInt → Option V} {addr : CInt}
  {op : TableCall V} {r : TableAnswer V} {i : ℕ}

theorem Sim.bucketAt (h : Sim C n B pre t m) (ha : addr.toInt = i) (hi : i < n) :
    ∃ b, t.bucketAt addr = some b ∧ t.buckets[i]? = some b := by
  have hlt : i < t.buckets.length := by rwa [h.length]
  refine ⟨t.buckets[i], ?_, List.getElem?_eq_getElem hlt⟩
  rw [Hashtable.bucketAt, ha, if_neg (by omega), Int.toNat_natCast, List.getElem?_eq_getElem hlt]

/-- One bucket answers as its share of the map does. -/
theorem Sim.callAt (h : Sim C n B pre t m) (addr : CInt) (m' : CInt → Option V) (hb : B.Behaves (finiteMap V) pre) (hop : pre op)
    (ha : addr.toInt = i) (hi : i < n)
    (happ : (finiteMap V).apply op (share C n m i) = some (share C n m' i, r))
    (hrest : ∀ j, j ≠ i → share C n m' j = share C n m j) :
    ∃ t', callAt B op addr t = some (t', r) ∧ Sim C n B pre t' m' := by
  obtain ⟨b, hat, hget⟩ := h.bucketAt ha hi
  obtain ⟨b', hcall, htwin⟩ := (h.twin i b hget).step hb hop happ
  have he : Hashtable.callAt B op addr t =
      some ({ t with buckets := t.buckets.set addr.toInt.toNat b' }, r) := by
    rw [Hashtable.callAt, hat]
    simp [hcall]
  refine ⟨_, he, h.maxhtlength, h.hash, ?_, fun j b₁ hj => ?_⟩
  · simp [h.length]
  · have hset : (t.buckets.set addr.toInt.toNat b')[j]? = some b₁ := hj
    rw [ha, Int.toNat_natCast] at hset
    by_cases hji : j = i
    · subst hji
      rw [List.getElem?_set_self (by rwa [h.length])] at hset
      cases hset
      exact htwin
    · rw [List.getElem?_set_ne (Ne.symm hji)] at hset
      rw [hrest j hji]
      exact h.twin j b₁ hset

/-- The loop of `length` has counted the keys of the first `i` buckets. -/
theorem Sim.lengths (h : Sim C n B pre t m) (hb : B.Behaves (finiteMap V) pre)
    (hlen : pre .length) (h2 : n < 2 ^ 31) : ∀ i ≤ n, ∃ t', Sim C n B pre t' m ∧
      (List.range i).foldlM (addLength B) (t, 0) =
        some (t', BitVec.ofNat 32 {k | m k ≠ none ∧ C.bucketOf n k < i}.ncard) := by
  intro i
  induction i with
  | zero =>
    intro _
    refine ⟨t, h, ?_⟩
    simp
  | succ i ih =>
    intro hi
    obtain ⟨t', h', hfold⟩ := ih (Nat.le_of_succ_le hi)
    have hi : i < n := Nat.lt_of_succ_le hi
    obtain ⟨t₁, hcall, h₁⟩ := h'.callAt (BitVec.ofNat 32 i) m hb hlen (toInt_ofNat (by omega)) hi rfl
      fun _ _ => rfl
    refine ⟨t₁, h₁, ?_⟩
    rw [List.range_succ, List.foldlM_append, hfold]
    simp only [Option.bind_eq_bind, Option.bind_some, List.foldlM_cons, List.foldlM_nil, addLength,
      hcall, ncard_lt_succ, BitVec.ofNat_add]
    rfl

theorem Sim.apply (h : Sim C n B pre t m) (hC : C.Masks) (h1 : 1 ≤ n) (h2 : n < 2 ^ 31)
    (hb : B.Behaves (finiteMap V) pre) (hlen : pre .length) (hop : pre op) :
    ∃ t' m' r, apply C B op t = some (t', r) ∧ (finiteMap V).apply op m = some (m', r) ∧
      Sim C n B pre t' m' := by
  cases op with
  | call op =>
    obtain ⟨hlt, hint⟩ := hC.addr_lt h1 h2 op.key
    obtain ⟨t', hcall, h'⟩ := h.callAt _ ((mapObject CInt V).apply op m).1 hb hop hint hlt
      (by simp only [finiteMap, apply_share]; rfl) fun j hj => share_apply_of_ne (Ne.symm hj)
    refine ⟨t', _, _, ?_, rfl, h'⟩
    rw [Hashtable.apply, h.hash]
    exact hcall
  | length =>
    obtain ⟨t', h', hfold⟩ := h.lengths hb hlen h2 n le_rfl
    refine ⟨t', m, _, ?_, rfl, h'⟩
    have hall : {k | m k ≠ none ∧ C.bucketOf n k < n} = {k | m k ≠ none} := by
      ext k
      simp [(hC.addr_lt h1 h2 k).1]
    rw [Hashtable.apply, h.maxhtlength, hfold, hall]
    rfl

theorem Sim.initial (hC : C.Masks) (h2 : n < 2 ^ 31) :
    Sim C n B pre (table C n B).init (finiteMap V).init where
  maxhtlength := hC.maxhtlength h2
  hash := rfl
  length := by
    change (List.replicate (C.maxhtlength n) B.init).length = n
    rw [List.length_replicate, hC.maxhtlength h2]
  twin i b hb := by
    have hb : (List.replicate (C.maxhtlength n) B.init)[i]? = some b := hb
    rw [List.getElem?_replicate] at hb
    have hshare : share C n (finiteMap V).init i = (finiteMap V).init := by
      funext k
      simp only [share, finiteMap]
      split <;> rfl
    rw [hshare]
    split at hb
    · cases hb
      exact .init B (finiteMap V) pre
    · cases hb

end sim

/-- **Every index is that of a bucket, and the table behaves like a finite map if
each of its buckets does.** -/
theorem tables_behave (C : TableClass) (hC : C ∈ tableClasses) (n : ℕ) (h1 : 1 ≤ n)
    (h2 : n ≤ 2 ^ 31 - 1) (B : Machine (TableCall V) (TableAnswer V) β) (pre : TableCall V → Prop)
    (hlen : pre .length) (hb : B.Behaves (finiteMap V) pre) :
    (∀ key, 0 ≤ (C.addr key (C.hash n)).toInt ∧ (C.addr key (C.hash n)).toInt < n) ∧
      (table C n B).Behaves (finiteMap V) pre := by
  have h2 : n < 2 ^ 31 := by omega
  refine ⟨fun key => ?_, ?_⟩
  · obtain ⟨hlt, hint⟩ := (masks hC).addr_lt h1 h2 key
    rw [hint]
    omega
  · exact .of_sim (Sim C n B pre) (.initial (masks hC) h2) fun h hop =>
      h.apply (masks hC) h1 h2 hb hlen hop

/-- Three buckets that are finite maps, which is no power of two. -/
theorem tables_behave_three :
    (∀ key, 0 ≤ (hashtablePugh.addr key (hashtablePugh.hash 3)).toInt ∧
      (hashtablePugh.addr key (hashtablePugh.hash 3)).toInt < (3 : ℕ)) ∧
      (table hashtablePugh 3 (finiteMap ℕ)).Behaves (finiteMap ℕ) fun _ => True :=
  tables_behave hashtablePugh (by simp [tableClasses]) 3 (by decide) (by decide) (finiteMap ℕ)
    (fun _ => True) trivial fun _ _ => rfl

/-! ### More keys than an `int` counts -/

/-- Inserts of the keys from 0 on. -/
def fill (n : ℕ) : List (Call CInt ℕ) := (List.range n).map fun i => .insert (BitVec.ofNat 32 i) 1

theorem run_fill (ks : List CInt) (m : CInt → Option ℕ) :
    ∃ m' rs, (finiteMap ℕ).run (ks.map fun k => .call (.insert k 1)) m = some (m', rs) ∧
      {k | m' k ≠ none} = {k | m k ≠ none} ∪ {k | k ∈ ks} := by
  induction ks generalizing m with
  | nil => exact ⟨m, [], rfl, by simp⟩
  | cons k ks ih =>
    obtain ⟨m', rs, hrun, hset⟩ := ih ((mapObject CInt ℕ).apply (.insert k 1) m).1
    refine ⟨m', .answer ((mapObject CInt ℕ).apply (.insert k 1) m).2 :: rs, ?_, ?_⟩
    · simp only [List.map_cons, Machine.run, finiteMap] at hrun ⊢
      rw [hrun]
      rfl
    · rw [hset]
      ext j
      rcases hm : m k with _ | v
      · rw [apply_insert_none hm]
        by_cases hj : j = k
        · simp [hj]
        · simp [hj]
      · rw [apply_insert_some hm]
        by_cases hj : j = k
        · simp [hj, hm]
        · simp [hj]

/-- That many keys are then there. -/
theorem keyCount_fill {n : ℕ} (hn : n ≤ 2 ^ 32) :
    ∃ m rs, (finiteMap ℕ).run ((fill n).map .call) (finiteMap ℕ).init = some (m, rs) ∧
      keyCount m = n := by
  obtain ⟨m, rs, hrun, hset⟩ :=
    run_fill ((List.range n).map fun i => BitVec.ofNat 32 i) (finiteMap ℕ).init
  refine ⟨m, rs, ?_, ?_⟩
  · rw [← hrun]
    simp [fill, List.map_map, Function.comp_def]
  · have himage : {k | m k ≠ none} = (fun i => BitVec.ofNat 32 i) '' (Finset.range n : Set ℕ) := by
      rw [hset]
      ext k
      simp [finiteMap]
    have hinj : Set.InjOn (fun i => BitVec.ofNat 32 i) (Finset.range n : Set ℕ) := by
      intro i hi j hj he
      have hi : i < n := by simpa using hi
      have hj : j < n := by simpa using hj
      have he := congrArg BitVec.toNat he
      simp only [BitVec.toNat_ofNat] at he
      rwa [Nat.mod_eq_of_lt (by omega), Nat.mod_eq_of_lt (by omega)] at he
    rw [keyCount, himage, hinj.ncard_image, Set.ncard_coe_finset, Finset.card_range]

/-- With `2 ^ 31` keys in two buckets, the `int` that `length` returns is not the
number of keys. -/
theorem length_overflows :
    ¬ ∀ (ops : List (Call CInt ℕ)) t rs m rs' t' count,
      (table hashtableHarris 2 (finiteMap ℕ)).run (ops.map .call)
        (table hashtableHarris 2 (finiteMap ℕ)).init = some (t, rs) →
      (finiteMap ℕ).run (ops.map .call) (finiteMap ℕ).init = some (m, rs') →
      apply hashtableHarris (finiteMap ℕ) .length t = some (t', .length count) →
      count.toInt = keyCount m := by
  intro h
  have hmasks : hashtableHarris.Masks := masks (by simp [tableClasses])
  have hstep : ∀ {t : Hashtable (CInt → Option ℕ)} {m} op,
      Sim hashtableHarris 2 (finiteMap ℕ) (fun _ => True) t m → True →
      ∃ t' m' r, apply hashtableHarris (finiteMap ℕ) op t = some (t', r) ∧
        (finiteMap ℕ).apply op m = some (m', r) ∧
        Sim hashtableHarris 2 (finiteMap ℕ) (fun _ => True) t' m' := fun _ hs _ =>
    hs.apply hmasks (by decide) (by decide) (fun _ _ => rfl) trivial trivial
  obtain ⟨t, m, rs, hrun, hmap, hsim⟩ := Machine.run_of_sim
    (M := table hashtableHarris 2 (finiteMap ℕ)) (N := finiteMap ℕ) _ (hstep _)
    ((fill (2 ^ 31)).map .call) _ _ (Sim.initial hmasks (by decide)) fun _ _ => trivial
  obtain ⟨m', rs', hmap', hcount⟩ := keyCount_fill (n := 2 ^ 31) (by decide)
  have hm : m' = m := congrArg Prod.fst (Option.some.inj (hmap'.symm.trans hmap))
  obtain ⟨t', m₁, r, hlen, hr, -⟩ := hstep .length hsim trivial
  have hr : r = .length (BitVec.ofNat 32 (keyCount m)) :=
    (congrArg Prod.snd (Option.some.inj hr)).symm
  subst hr
  have hbad := h _ t rs m rs t' _ hrun hmap hlen
  rw [← hm, hcount] at hbad
  exact absurd hbad (by decide)

end Hashtable

end Ascylib
