/-
# The table of array maps

`src/algorithms/hashtable_optik_arraymap.h` with the sizes that `main` in
`src/test_search.cc` computes: `initial / load_factor` buckets, each an array
map with `range / initial * load_factor` slots, for keys from 1 to `range`.
`main` announces that it rounds `initial` and `range` up to powers of two, but
keeps the numbers it was given. So the mask is no modulus and the divisions
truncate, and more keys may belong to a bucket than it has slots.

One thread calls the table. A call of a bucket is the array map's own, run
alone: an `insert` of an absent key takes a free slot if there is one, and
returns 0 if there is none. `room_iff` says for which sizes there always is one.

Key definitions: `Sizes`, `ArrayMapTable.Reached`, `ArrayMapTable.HasRoom`.
Key theorem: `ArrayMapTable.room_iff`.
-/
import Ascylib.ArrayMapOptik
import Ascylib.Hashtable
import Ascylib.Concur.Solo

set_option linter.unusedSectionVars false

namespace Ascylib

open Concur

/-! ### One call of an array map -/

/-- Taking the lock and giving it back, even where the word wraps. -/
theorem section_unlocked {ol : OptikT} (h : optikIsLocked ol = false) :
    optikIsLocked (ol + 1 + 1) = false := by
  rw [not_locked_iff] at h ⊢
  have hlt := ol.toNat_lt
  simp only [UInt64.toNat_add, UInt64.toNat_one]
  omega

namespace ArrayMapTable

open ArrayMapOptik

section bucket

variable {size : ℕ} {K V : Type*} [DecidableEq K] [Zero K] [Zero V]

/-- What a call does to the keys. -/
inductive Effect (s₀ : ArrayMap size K V) (op : Call K V) (s : ArrayMap size K V) :
    Answer V → Prop
  | read {v : V} : (∀ k v, op ≠ .insert k v) → s.key = s₀.key → Effect s₀ op s (.val v)
  | present : ¬ Absent s₀ op.key → s.key = s₀.key → Effect s₀ op s (.flag false)
  | full : Full s₀ → s.key = s₀.key → Effect s₀ op s (.flag false)
  | put {j : Fin size} : Absent s₀ op.key → s₀.key j = 0 →
      s.key = Function.update s₀.key j op.key → Effect s₀ op s (.flag true)
  | clear {j : Fin size} {v : V} : (∀ k v, op ≠ .insert k v) → s₀.key j = op.key →
      s.key = Function.update s₀.key j 0 → Effect s₀ op s (.val v)

/-- An `insert` has scanned the slots before `i`. -/
structure Looked (s₀ : ArrayMap size K V) (k : K) (i : ℕ) (freeIdx : Option (Fin size)) : Prop where
  other : ∀ j : Fin size, j < i → s₀.key j ≠ k
  free : ∀ j, freeIdx = some j → s₀.key j = 0
  full : freeIdx = none → ∀ j : Fin size, j < i → s₀.key j ≠ 0

/-- Where a call is that began with the map `s₀`. -/
def Spot (s₀ : ArrayMap size K V) (op : Call K V) (s : ArrayMap size K V) : Pc size V → Prop
  | .searchVersion | .searchKey _ _ | .searchVal _ _ | .searchSame _ _ | .removeVersion =>
    s = s₀ ∧ ∀ k v, op ≠ .insert k v
  | .insertVersion => s = s₀ ∧ ∃ k v, op = .insert k v
  | .insertKey version i freeIdx =>
    s = s₀ ∧ (∃ k v, op = .insert k v) ∧ version = s₀.lock ∧ Looked s₀ op.key i freeIdx
  | .insertTry version freeIdx | .insertCas version freeIdx =>
    s = s₀ ∧ (∃ k v, op = .insert k v) ∧ version = s₀.lock ∧ Looked s₀ op.key size freeIdx
  | .insertStoreKey j =>
    s = { s₀ with lock := s₀.lock + 1 } ∧ (∃ k v, op = .insert k v) ∧ Absent s₀ op.key ∧ s₀.key j = 0
  | .insertStoreVal _ =>
    s.lock = s₀.lock + 1 ∧ (∃ k v, op = .insert k v) ∧ Effect s₀ op s (.flag true)
  | .insertUnlock res => s.lock = s₀.lock + 1 ∧ Effect s₀ op s (.flag res)
  | .insertUnlocked res ver => ver = s₀.lock + 1 ∧ Effect s₀ op s (.flag res)
  | .removeKey version _ => s = s₀ ∧ (∀ k v, op ≠ .insert k v) ∧ version = s₀.lock
  | .removeTry version j | .removeCas version j =>
    s = s₀ ∧ (∀ k v, op ≠ .insert k v) ∧ version = s₀.lock ∧ s₀.key j = op.key
  | .removeVal j | .removeStore j _ =>
    s = { s₀ with lock := s₀.lock + 1 } ∧ (∀ k v, op ≠ .insert k v) ∧ s₀.key j = op.key
  | .removeUnlock val => s.lock = s₀.lock + 1 ∧ Effect s₀ op s (.val val)
  | .removeUnlocked val ver => ver = s₀.lock + 1 ∧ Effect s₀ op s (.val val)
  | .done r | .unchanged r => optikIsLocked s.lock = false ∧ Effect s₀ op s r

variable {s₀ s : ArrayMap size K V} {op : Call K V} {l : Pc size V} {r : Answer V} {i : ℕ}
  {freeIdx : Option (Fin size)}

theorem Effect.congr {s' : ArrayMap size K V} (h : Effect s₀ op s r) (hk : s'.key = s.key) :
    Effect s₀ op s' r := by
  cases h with
  | read hop he => exact .read hop (hk.trans he)
  | present ha he => exact .present ha (hk.trans he)
  | full hf he => exact .full hf (hk.trans he)
  | put ha h0 he => exact .put ha h0 (hk.trans he)
  | clear hop h0 he => exact .clear hop h0 (hk.trans he)

theorem Looked.absent {k : K} (h : Looked s₀ k size freeIdx) : Absent s₀ k := fun j => h.other j j.isLt

theorem Looked.zero (k : K) : Looked s₀ k 0 none :=
  ⟨fun _ h => absurd h (Nat.not_lt_zero _), nofun, fun _ _ h => absurd h (Nat.not_lt_zero _)⟩

/-- One slot more, which holds another key. -/
theorem Looked.next {k : K} {j : Fin size} (h : Looked s₀ k j freeIdx) (hk : s₀.key j ≠ k) :
    Looked s₀ k (j + 1) (if s₀.key j = 0 then some j else freeIdx) := by
  refine ⟨fun m hm => ?_, fun m hm => ?_, fun hm m hlt => ?_⟩
  · rcases Nat.lt_succ_iff_lt_or_eq.mp hm with hm | hm
    · exact h.other m hm
    · rwa [Fin.ext hm]
  · by_cases h0 : s₀.key j = 0
    · rw [if_pos h0] at hm
      cases hm
      exact h0
    · rw [if_neg h0] at hm
      exact h.free m hm
  · by_cases h0 : s₀.key j = 0
    · rw [if_pos h0] at hm
      cases hm
    · rw [if_neg h0] at hm
      rcases Nat.lt_succ_iff_lt_or_eq.mp hlt with hlt | hlt
      · exact h.full hm m hlt
      · rwa [Fin.ext hlt]

theorem Looked.mono {k : K} (h : Looked s₀ k i freeIdx) (hi : size ≤ i) :
    Looked s₀ k size freeIdx :=
  ⟨fun j _ => h.other j (Nat.lt_of_lt_of_le j.isLt hi), h.free,
    fun hf j _ => h.full hf j (Nat.lt_of_lt_of_le j.isLt hi)⟩

theorem Spot.first (s₀ : ArrayMap size K V) (op : Call K V) : Spot s₀ op s₀ (start op) := by
  cases op with
  | search k => exact ⟨rfl, nofun⟩
  | insert k v => exact ⟨rfl, k, v, rfl⟩
  | remove k => exact ⟨rfl, nofun⟩

theorem Spot.step (hq : optikIsLocked s₀.lock = false) (h : Spot s₀ op s l) :
    Spot s₀ op (step s op l).1 (step s op l).2 := by
  have scan : ∀ {n : ℕ} {f : Option (Fin size)}, (∃ k v, op = .insert k v) →
      Looked s₀ op.key n f →
      Spot s₀ op s₀ (loop n (.insertKey s₀.lock · f) (.insertTry s₀.lock f)) := by
    intro n f hop hl
    exact loop_cases (fun hlt => ⟨rfl, hop, rfl, hl⟩) fun hle => ⟨rfl, hop, rfl, hl.mono hle⟩
  have look : ∀ {n : ℕ} {body : Fin size → Pc size V}, (∀ k v, op ≠ .insert k v) →
      (∀ j, Spot s₀ op s₀ (body j)) → Spot s₀ op s₀ (loop n body (.unchanged (.val 0))) := by
    intro n body hop hb
    exact loop_cases (fun _ => hb _) fun _ => ⟨hq, .read hop rfl⟩
  have hcas : s₀.casLock s₀.lock (s₀.lock + 1) = (true, { s₀ with lock := s₀.lock + 1 }) := if_pos rfl
  cases l with
  | searchVersion =>
    obtain ⟨rfl, hop⟩ := h
    simp only [ArrayMapOptik.step, hq]
    exact look hop fun j => ⟨rfl, hop⟩
  | searchKey version j =>
    obtain ⟨rfl, hop⟩ := h
    by_cases hk : s.key j = op.key
    · simp only [ArrayMapOptik.step, if_pos hk]
      exact ⟨rfl, hop⟩
    · simp only [ArrayMapOptik.step, if_neg hk]
      exact look hop fun j => ⟨rfl, hop⟩
  | searchVal version j => exact h
  | searchSame version val =>
    obtain ⟨rfl, hop⟩ := h
    by_cases hv : version = s.lock
    · simp only [ArrayMapOptik.step, if_pos hv]
      exact ⟨hq, .read hop rfl⟩
    · simp only [ArrayMapOptik.step, if_neg hv]
      exact ⟨rfl, hop⟩
  | insertVersion =>
    obtain ⟨rfl, hop⟩ := h
    exact scan hop (.zero _)
  | insertKey version j freeIdx =>
    obtain ⟨rfl, hop, rfl, hl⟩ := h
    by_cases hk : s.key j = op.key
    · simp only [ArrayMapOptik.step, if_pos hk]
      exact ⟨hq, .present (fun ha => ha j hk) rfl⟩
    · simp only [ArrayMapOptik.step, if_neg hk]
      exact scan hop (hl.next hk)
  | insertTry version freeIdx =>
    obtain ⟨rfl, hop, rfl, hl⟩ := h
    have hold : optikOutdated s.lock s.lock = false := by simp [optikOutdated, hq]
    simp only [ArrayMapOptik.step, hold]
    exact ⟨rfl, hop, rfl, hl⟩
  | insertCas version freeIdx =>
    obtain ⟨rfl, hop, rfl, hl⟩ := h
    cases freeIdx with
    | none =>
      simp only [ArrayMapOptik.step, hcas]
      exact ⟨rfl, .full (fun j => hl.full rfl j j.isLt) rfl⟩
    | some j =>
      simp only [ArrayMapOptik.step, hcas]
      exact ⟨rfl, hop, hl.absent, hl.free j rfl⟩
  | insertStoreKey j =>
    obtain ⟨rfl, hop, ha, h0⟩ := h
    refine ⟨rfl, hop, .put ha h0 (funext fun m => ?_)⟩
    by_cases hm : m = j
    · subst hm
      simp [ArrayMapOptik.step]
    · simp only [ArrayMapOptik.step, Function.update_of_ne hm, ArrayMap.key_setKey_of_ne hm]
  | insertStoreVal j =>
    obtain ⟨hlock, ⟨k, v, rfl⟩, heff⟩ := h
    exact ⟨hlock, heff.congr (funext fun m => ArrayMap.key_setVal)⟩
  | insertUnlock res => exact h
  | insertUnlocked res ver =>
    obtain ⟨rfl, heff⟩ := h
    exact ⟨section_unlocked hq, heff.congr rfl⟩
  | removeVersion =>
    obtain ⟨rfl, hop⟩ := h
    exact look hop fun j => ⟨rfl, hop, rfl⟩
  | removeKey version j =>
    obtain ⟨rfl, hop, rfl⟩ := h
    by_cases hk : s.key j = op.key
    · simp only [ArrayMapOptik.step, if_pos hk]
      exact ⟨rfl, hop, rfl, hk⟩
    · simp only [ArrayMapOptik.step, if_neg hk]
      exact look hop fun j => ⟨rfl, hop, rfl⟩
  | removeTry version j =>
    obtain ⟨rfl, hop, rfl, hk⟩ := h
    have hold : optikOutdated s.lock s.lock = false := by simp [optikOutdated, hq]
    simp only [ArrayMapOptik.step, hold]
    exact ⟨rfl, hop, rfl, hk⟩
  | removeCas version j =>
    obtain ⟨rfl, hop, rfl, hk⟩ := h
    simp only [ArrayMapOptik.step, hcas]
    exact ⟨rfl, hop, hk⟩
  | removeVal j => exact h
  | removeStore j val =>
    obtain ⟨rfl, hop, hk⟩ := h
    refine ⟨rfl, .clear hop hk (funext fun m => ?_)⟩
    by_cases hm : m = j
    · subst hm
      simp [ArrayMapOptik.step]
    · simp only [ArrayMapOptik.step, Function.update_of_ne hm, ArrayMap.key_setKey_of_ne hm]
  | removeUnlock val => exact h
  | removeUnlocked val ver =>
    obtain ⟨rfl, heff⟩ := h
    exact ⟨section_unlocked hq, heff.congr rfl⟩
  | done r => exact h
  | unchanged r => exact h

/-- The array map that one thread uses. -/
abbrev bucket (size : ℕ) (K V : Type*) [DecidableEq K] [Zero K] [Zero V] := program size Unit K V

theorem Spot.goes (hq : optikIsLocked s₀.lock = false)
    (hg : (bucket size K V).Goes () op (s₀, start op) (s, l)) : Spot s₀ op s l := by
  refine hg.keeps (I := fun s l => Spot s₀ op s l) (.first s₀ op) fun hI _ hstep => ?_
  have h := hI.step hq
  rwa [Option.some.inj hstep] at h

/-- What a call alone does, if it ends. -/
theorem Effect.of_alone (hq : optikIsLocked s₀.lock = false)
    (h : (bucket size K V).Alone () op s₀ s r) : optikIsLocked s.lock = false ∧ Effect s₀ op s r := by
  obtain ⟨l, hg, hres⟩ := h
  have hspot := Spot.goes hq hg
  cases l <;> cases hres <;> exact hspot

/-- The scan of an absent key comes to its end. -/
theorem goes_scan (ha : Absent s₀ op.key) (hop : ∃ k v, op = .insert k v) : ∀ i ≤ size, ∃ f,
    (bucket size K V).Goes () op (s₀, start op)
      (s₀, loop i (.insertKey s₀.lock · f) (.insertTry s₀.lock f)) := by
  obtain ⟨k, v, rfl⟩ := hop
  intro i
  induction i with
  | zero =>
    intro _
    exact ⟨none, .single ⟨rfl, (), rfl⟩⟩
  | succ i ih =>
    intro hi
    obtain ⟨f, hg⟩ := ih (Nat.le_of_succ_le hi)
    have hlt : i < size := Nat.lt_of_succ_le hi
    refine ⟨if s₀.key ⟨i, hlt⟩ = 0 then some ⟨i, hlt⟩ else f, ?_⟩
    rw [loop, dif_pos hlt] at hg
    refine hg.step () _ _ rfl ?_
    simp only [program, ArrayMapOptik.step, if_neg (ha ⟨i, hlt⟩)]

/-- An `insert` of an absent key ends, and takes a slot if one is free. -/
theorem insert_alone (hq : optikIsLocked s₀.lock = false) {k : K} {v : V} (ha : Absent s₀ k)
    (hf : ¬ Full s₀) : ∃ s, (bucket size K V).Alone () (.insert k v) s₀ s (.flag true) := by
  have hk : Absent s₀ (Call.insert k v).key := ha
  obtain ⟨f, hg⟩ := goes_scan hk ⟨k, v, rfl⟩ size le_rfl
  rw [loop, dif_neg (Nat.lt_irrefl size)] at hg
  have hspot := Spot.goes hq hg
  have hlooked : Looked s₀ k size f := hspot.2.2.2
  cases f with
  | none => exact absurd (fun j => hlooked.full rfl j j.isLt) hf
  | some j =>
    have htry := hg.step () s₀ (.insertCas s₀.lock (some j)) rfl
      (by simp [program, ArrayMapOptik.step, optikOutdated, hq])
    have hcas := htry.step () { s₀ with lock := s₀.lock + 1 } (.insertStoreKey j) rfl
      (by simp [program, ArrayMapOptik.step, ArrayMap.casLock])
    have hkey := hcas.step () _ _ rfl rfl
    have hval := hkey.step () _ _ rfl rfl
    have hunlock := hval.step () _ _ rfl rfl
    exact ⟨_, _, hunlock.step () _ _ rfl rfl, rfl⟩

end bucket

end ArrayMapTable

/-! ### The sizes that `main` computes -/

/-- `initial`, `range` and `load_factor`. -/
structure Sizes where
  initial : SizeT
  range : SizeT
  loadFactor : SizeT

namespace Sizes

variable (z : Sizes)

/-- `maxhtlength = (unsigned int) initial / load_factor` -/
def maxhtlength : CInt := ((z.initial.setWidth 32).setWidth 64 / z.loadFactor).setWidth 32

/-- `maxbulength = ((unsigned int) range / initial) * load_factor` -/
def maxbulength : CInt :=
  ((z.range.setWidth 32).setWidth 64 / z.initial * z.loadFactor).setWidth 32

/-- The slots of a bucket: the `int` becomes a `size_t`. -/
def capacity : ℕ := (z.maxbulength.signExtend 64).toNat

/-- What `main` accepts: `atoi` and `atol` gave the numbers, and none is 0. -/
structure Accepted : Prop where
  initial : z.initial.toNat < 2 ^ 31
  range : z.range.toNat < 2 ^ 63
  loadFactor : 1 ≤ z.loadFactor.toNat
  load_le : z.loadFactor.toNat ≤ z.initial.toNat
  initial_le : z.initial.toNat ≤ z.range.toNat

/-- A key of the test. -/
def InRange (k : CInt) : Prop := 1 ≤ k.toInt ∧ k.toInt ≤ z.range.toNat

variable {z}

theorem Accepted.toNat_maxhtlength (h : z.Accepted) :
    z.maxhtlength.toNat = z.initial.toNat / z.loadFactor.toNat := by
  have h1 := h.initial
  have hle : z.initial.toNat / z.loadFactor.toNat ≤ z.initial.toNat := Nat.div_le_self _ _
  simp only [maxhtlength, BitVec.toNat_setWidth, BitVec.toNat_udiv]
  have hmod : z.initial.toNat % 2 ^ 32 % 2 ^ 64 = z.initial.toNat := by omega
  rw [hmod, Nat.mod_eq_of_lt (by omega)]

theorem Accepted.buckets (h : z.Accepted) : 1 ≤ z.maxhtlength.toNat ∧ z.maxhtlength.toNat < 2 ^ 31 := by
  rw [h.toNat_maxhtlength]
  have h1 := h.initial
  have hle : z.initial.toNat / z.loadFactor.toNat ≤ z.initial.toNat := Nat.div_le_self _ _
  exact ⟨Nat.div_pos h.load_le h.loadFactor, by omega⟩

end Sizes

/-- `int maxhtlength` -/
def hashtableOptikArrayMap : TableClass where
  maxhtlength n := (BitVec.ofNat 32 n).toInt.toNat
  hash n := (BitVec.ofNat 32 n - 1).signExtend 64
  addr := hashedAddr

theorem masks_arrayMap : hashtableOptikArrayMap.Masks := by
  have h : hashtableOptik ∈ tableClasses := by simp [tableClasses]
  exact masks h

namespace ArrayMapTable

open ArrayMapOptik

variable {V : Type*} [Zero V] {z : Sizes}

/-- The bucket of a key. -/
def bucketOf (z : Sizes) (k : CInt) : ℕ := hashtableOptikArrayMap.bucketOf z.maxhtlength.toNat k

/-- `HashtableOptikArrayMap` with its array maps. -/
abbrev Table (z : Sizes) (V : Type*) := Hashtable (ArrayMap z.capacity CInt V)

/-- The constructor. -/
def new (z : Sizes) (V : Type*) [Zero V] : Table z V where
  maxhtlength := hashtableOptikArrayMap.maxhtlength z.maxhtlength.toNat
  hash := hashtableOptikArrayMap.hash z.maxhtlength.toNat
  buckets := List.replicate (hashtableOptikArrayMap.maxhtlength z.maxhtlength.toNat)
    (bucket z.capacity CInt V).init

/-- A call of the bucket of its key that returns `r`. -/
def Called (t : Table z V) (op : Call CInt V) (t' : Table z V) (r : Answer V) : Prop :=
  ∃ b b', t.bucketAt (hashedAddr op.key t.hash) = some b ∧
    (bucket z.capacity CInt V).Alone () op b b' r ∧
    t' = { t with buckets := t.buckets.set (hashedAddr op.key t.hash).toInt.toNat b' }

/-- A key of the test, and a value other than 0. -/
def Uses (z : Sizes) (op : Call CInt V) : Prop :=
  z.InRange op.key ∧ ∀ k v, op = .insert k v → v ≠ 0

/-- The tables that one thread can come to. -/
inductive Reached (z : Sizes) : Table z V → Prop
  | new : Reached z (new z V)
  | call {t t' op r} : Reached z t → Uses z op → Called t op t' r → Reached z t'

/-- The bucket of the key holds it. -/
def Present (t : Table z V) (k : CInt) : Prop :=
  ∃ b i, t.bucketAt (hashedAddr k t.hash) = some b ∧ b.key i = k

/-- An `insert` of an absent key always ends, and returns 1. -/
def NeverFull (z : Sizes) (V : Type*) [Zero V] : Prop :=
  ∀ t : Table z V, Reached z t → ∀ k v, Uses z (.insert k v) → ¬ Present t k →
    (∃ t', Called t (.insert k v) t' (.flag true)) ∧
    ∀ t' r, Called t (.insert k v) t' r → r = .flag true

/-- No bucket has more keys of the test than slots. -/
def HasRoom (z : Sizes) : Prop :=
  ∀ a, {k | z.InRange k ∧ bucketOf z k = a}.ncard ≤ z.capacity

/-- What a bucket may hold. -/
structure Fine (z : Sizes) (a : ℕ) (b : ArrayMap z.capacity CInt V) : Prop where
  unlocked : optikIsLocked b.lock = false
  distinct : Distinct b
  key : ∀ i, b.key i ≠ 0 → z.InRange (b.key i) ∧ bucketOf z (b.key i) = a

/-- A well-formed table. -/
structure Wf (t : Table z V) : Prop where
  hash : t.hash = hashtableOptikArrayMap.hash z.maxhtlength.toNat
  length : t.buckets.length = z.maxhtlength.toNat
  fine : ∀ a b, t.buckets[a]? = some b → Fine z a b

theorem inRange_ne_zero {k : CInt} (h : z.InRange k) : k ≠ 0 := by
  rintro rfl
  exact absurd h.1 (by decide)

/-- What a call leaves in a bucket. -/
theorem Fine.effect {a : ℕ} {b b' : ArrayMap z.capacity CInt V} {op : Call CInt V} {r : Answer V}
    (h : Fine z a b) (hk : z.InRange op.key) (ha : bucketOf z op.key = a)
    (hu : optikIsLocked b'.lock = false) (he : Effect b op b' r) : Fine z a b' := by
  have same : b'.key = b.key → Fine z a b' := by
    intro hkey
    refine ⟨hu, fun i j => ?_, fun i => ?_⟩
    · rw [hkey]
      exact h.distinct i j
    · rw [hkey]
      exact h.key i
  cases he with
  | read _ hkey => exact same hkey
  | present _ hkey => exact same hkey
  | full _ hkey => exact same hkey
  | @put j habs h0 hkey =>
    refine ⟨hu, fun m n => ?_, fun m => ?_⟩
    · rw [hkey]
      intro hm hmn
      by_cases hmj : m = j
      · subst hmj
        by_contra hne
        rw [Function.update_self, Function.update_of_ne (Ne.symm hne)] at hmn
        exact habs n hmn.symm
      · rw [Function.update_of_ne hmj] at hm hmn
        by_cases hnj : n = j
        · subst hnj
          rw [Function.update_self] at hmn
          exact absurd hmn (habs m)
        · rw [Function.update_of_ne hnj] at hmn
          exact h.distinct m n hm hmn
    · rw [hkey]
      by_cases hmj : m = j
      · subst hmj
        rw [Function.update_self]
        exact fun _ => ⟨hk, ha⟩
      · rw [Function.update_of_ne hmj]
        exact h.key m
  | @clear j _ _ hj hkey =>
    refine ⟨hu, fun m n => ?_, fun m => ?_⟩
    · rw [hkey]
      intro hm hmn
      by_cases hmj : m = j
      · subst hmj
        exact absurd (Function.update_self ..) hm
      · rw [Function.update_of_ne hmj] at hm hmn
        by_cases hnj : n = j
        · subst hnj
          rw [Function.update_self] at hmn
          exact absurd hmn hm
        · rw [Function.update_of_ne hnj] at hmn
          exact h.distinct m n hm hmn
    · rw [hkey]
      by_cases hmj : m = j
      · subst hmj
        exact fun hm => absurd (Function.update_self ..) hm
      · rw [Function.update_of_ne hmj]
        exact h.key m

section table

variable {t t' : Table z V} {k : CInt} {v : V} {op : Call CInt V} {r : Answer V}

theorem Wf.addr (w : Wf t) (hz : z.Accepted) (k : CInt) :
    (hashedAddr k t.hash).toInt = bucketOf z k ∧ bucketOf z k < t.buckets.length := by
  obtain ⟨h1, h2⟩ := hz.buckets
  obtain ⟨hlt, hint⟩ := masks_arrayMap.addr_lt h1 h2 k
  rw [w.hash, w.length]
  exact ⟨hint, hlt⟩

/-- The bucket of a key. -/
theorem Wf.bucketAt (w : Wf t) (hz : z.Accepted) (k : CInt) :
    t.bucketAt (hashedAddr k t.hash) = t.buckets[bucketOf z k]? := by
  rw [Hashtable.bucketAt, (w.addr hz k).1, if_neg (by omega), Int.toNat_natCast]

theorem Wf.new (hz : z.Accepted) : Wf (new z V) := by
  obtain ⟨h1, h2⟩ := hz.buckets
  refine ⟨rfl, ?_, fun a b hb => ?_⟩
  · rw [ArrayMapTable.new, List.length_replicate, masks_arrayMap.maxhtlength h2]
  · rw [ArrayMapTable.new, List.getElem?_replicate] at hb
    split at hb
    · cases hb
      exact ⟨optikInit_unlocked, fun i j h _ => absurd rfl h, fun i h => absurd rfl h⟩
    · cases hb

theorem Wf.called (w : Wf t) (hz : z.Accepted) (hop : Uses z op) (h : Called t op t' r) : Wf t' := by
  obtain ⟨b, b', hb, halone, rfl⟩ := h
  obtain ⟨hint, hlt⟩ := w.addr hz op.key
  rw [w.bucketAt hz] at hb
  have hfine := w.fine _ b hb
  obtain ⟨hu, heff⟩ := Effect.of_alone hfine.unlocked halone
  refine ⟨w.hash, by rw [List.length_set, w.length], fun a c hc => ?_⟩
  rw [hint, Int.toNat_natCast] at hc
  by_cases ha : a = bucketOf z op.key
  · subst ha
    rw [List.getElem?_set_self hlt] at hc
    cases hc
    exact hfine.effect hop.1 rfl hu heff
  · rw [List.getElem?_set_ne (Ne.symm ha)] at hc
    exact w.fine a c hc

theorem Reached.wf (h : Reached z t) (hz : z.Accepted) : Wf t := by
  induction h with
  | new => exact .new hz
  | call _ hop hcall ih => exact ih.called hz hop hcall

/-- A full bucket has as many keys as slots, and an absent one comes on top. -/
theorem Fine.lt_ncard {a : ℕ} {b : ArrayMap z.capacity CInt V} (h : Fine z a b) (hk : z.InRange k)
    (ha : bucketOf z k = a) (habs : Absent b k) (hf : Full b) :
    z.capacity < {k | z.InRange k ∧ bucketOf z k = a}.ncard := by
  have hinj : Function.Injective b.key := fun i j he => h.distinct i j (hf i) he
  have hk' : k ∉ Set.range b.key := by
    rintro ⟨i, hi⟩
    exact habs i hi
  have hsub : insert k (Set.range b.key) ⊆ {k | z.InRange k ∧ bucketOf z k = a} := by
    rintro j (rfl | ⟨i, rfl⟩)
    · exact ⟨hk, ha⟩
    · exact h.key i (hf i)
  have hcard : (Set.range b.key).ncard = z.capacity := by
    rw [← Set.image_univ, Set.ncard_image_of_injective _ hinj, Set.ncard_univ, Nat.card_fin]
  have hle := Set.ncard_le_ncard hsub (finite_keys _)
  rw [Set.ncard_insert_of_notMem hk' (finite_keys _), hcard] at hle
  exact hle

theorem neverFull_of_hasRoom (hz : z.Accepted) (h : HasRoom z) : NeverFull z V := by
  intro t ht k v hop habs
  have w := ht.wf hz
  obtain ⟨hint, hlt⟩ := w.addr hz k
  have hget := w.bucketAt hz k
  rw [List.getElem?_eq_getElem hlt] at hget
  have hfine := w.fine _ _ (List.getElem?_eq_getElem hlt)
  have ha : Absent t.buckets[bucketOf z k] k := fun i hi => habs ⟨_, i, hget, hi⟩
  have hf : ¬ Full t.buckets[bucketOf z k] := fun hf =>
    absurd (hfine.lt_ncard hop.1 rfl ha hf) (Nat.not_lt_of_le (h _))
  constructor
  · obtain ⟨b', halone⟩ := insert_alone (v := v) hfine.unlocked ha hf
    exact ⟨_, _, b', hget, halone, rfl⟩
  · rintro t' r ⟨b, b', hb, halone, rfl⟩
    have hbeq : t.buckets[bucketOf z k] = b := Option.some.inj (hget.symm.trans hb)
    subst hbeq
    obtain ⟨-, heff⟩ := Effect.of_alone hfine.unlocked halone
    cases heff with
    | read hne => exact absurd rfl (hne k v)
    | present hp => exact absurd ha hp
    | full hfull => exact absurd hfull hf
    | put => rfl
    | clear hne => exact absurd rfl (hne k v)

/-- An `insert` that returned 1 adds its key to those that the table holds. -/
theorem Present.called (w : Wf t) (hz : z.Accepted) (h : Called t (.insert k v) t' (.flag true)) :
    Present t' k ∧ ∀ j, z.InRange j → Present t j → Present t' j := by
  obtain ⟨b, b', hb, halone, rfl⟩ := h
  obtain ⟨hint, hlt⟩ := w.addr hz k
  have hb' := hb
  rw [w.bucketAt hz] at hb'
  obtain ⟨-, heff⟩ := Effect.of_alone (w.fine _ b hb').unlocked halone
  cases heff with
  | @put m habs h0 hkey =>
    have hset : ∀ j, (⟨t.maxhtlength, t.hash, t.buckets.set (hashedAddr k t.hash).toInt.toNat b'⟩ :
        Table z V).bucketAt (hashedAddr j t.hash) =
          (t.buckets.set (bucketOf z k) b')[bucketOf z j]? := by
      intro j
      rw [Hashtable.bucketAt, (w.addr hz j).1, if_neg (by omega), Int.toNat_natCast, hint,
        Int.toNat_natCast]
    refine ⟨⟨b', m, ?_, ?_⟩, fun j hj hp => ?_⟩
    · exact (hset k).trans (List.getElem?_set_self hlt)
    · rw [hkey, Function.update_self]
      rfl
    · obtain ⟨c, i, hc, hi⟩ := hp
      rw [w.bucketAt hz] at hc
      by_cases hjk : bucketOf z j = bucketOf z k
      · rw [hjk] at hc
        have hcb : c = b := Option.some.inj (hc.symm.trans hb')
        subst hcb
        have him : i ≠ m := by
          rintro rfl
          exact inRange_ne_zero hj (hi.symm.trans h0)
        refine ⟨b', i, ?_, ?_⟩
        · rw [← List.getElem?_set_self (a := b') hlt, ← hjk]
          exact (hset j).trans (by rw [hjk])
        · rw [hkey, Function.update_of_ne him]
          exact hi
      · refine ⟨c, i, ?_, hi⟩
        rw [← hc, ← List.getElem?_set_ne (a := b') (Ne.symm hjk)]
        exact hset j

/-- If an `insert` never fails, any keys can be in the table at once. -/
theorem NeverFull.fill [Nontrivial V] (hz : z.Accepted) (h : NeverFull z V) (F : Finset CInt)
    (hF : ∀ k ∈ F, z.InRange k) : ∃ t : Table z V, Reached z t ∧ ∀ k ∈ F, Present t k := by
  induction F using Finset.induction_on with
  | empty => exact ⟨new z V, .new, nofun⟩
  | insert k F _ ih =>
    obtain ⟨t, ht, hp⟩ := ih fun j hj => hF j (Finset.mem_insert_of_mem hj)
    have hk : z.InRange k := hF k (Finset.mem_insert_self k F)
    by_cases hin : Present t k
    · exact ⟨t, ht, fun j hj => (Finset.mem_insert.mp hj).elim (fun he => he ▸ hin) (hp j)⟩
    · obtain ⟨v, hv⟩ := exists_ne (0 : V)
      have huse : Uses z (.insert k v) := ⟨hk, fun _ _ he => by
        cases he
        exact hv⟩
      obtain ⟨⟨t', hcall⟩, -⟩ := h t ht k v huse hin
      obtain ⟨hpk, hpj⟩ := Present.called (ht.wf hz) hz hcall
      refine ⟨t', .call ht huse hcall, fun j hj => ?_⟩
      rcases Finset.mem_insert.mp hj with rfl | hj
      · exact hpk
      · exact hpj j (hF j (Finset.mem_insert_of_mem hj)) (hp j hj)

theorem hasRoom_of_neverFull [Nontrivial V] (hz : z.Accepted) (h : NeverFull z V) : HasRoom z := by
  intro a
  obtain ⟨t, ht, hp⟩ := h.fill hz (finite_keys {k | z.InRange k ∧ bucketOf z k = a}).toFinset
    fun k hk => ((Set.Finite.mem_toFinset _).mp hk).1
  have w := ht.wf hz
  rcases hb : t.buckets[a]? with _ | b
  · have hempty : {k | z.InRange k ∧ bucketOf z k = a} = ∅ := by
      refine Set.eq_empty_of_forall_notMem fun k hk => ?_
      obtain ⟨c, i, hc, -⟩ := hp k ((Set.Finite.mem_toFinset _).mpr hk)
      rw [w.bucketAt hz, hk.2, hb] at hc
      cases hc
    rw [hempty, Set.ncard_empty]
    exact Nat.zero_le _
  · have hsub : {k | z.InRange k ∧ bucketOf z k = a} ⊆ Set.range b.key := by
      intro k hk
      obtain ⟨c, i, hc, hi⟩ := hp k ((Set.Finite.mem_toFinset _).mpr hk)
      rw [w.bucketAt hz, hk.2, hb] at hc
      cases hc
      exact ⟨i, hi⟩
    calc {k | z.InRange k ∧ bucketOf z k = a}.ncard ≤ (Set.range b.key).ncard :=
          Set.ncard_le_ncard hsub (finite_keys _)
      _ ≤ (Set.univ : Set (Fin z.capacity)).ncard := by
          rw [← Set.image_univ]
          exact Set.ncard_image_le Set.finite_univ
      _ = z.capacity := by rw [Set.ncard_univ, Nat.card_fin]

/-- **An `insert` of an absent key never fails exactly if no bucket has more
keys of the test than slots.** -/
theorem room_iff [Nontrivial V] (z : Sizes) (hz : z.Accepted) : NeverFull z V ↔ HasRoom z :=
  ⟨hasRoom_of_neverFull hz, neverFull_of_hasRoom hz⟩

/-- 1024 keys of 2048 in 512 buckets of 4 slots. -/
theorem room_iff_powers : NeverFull ⟨1024, 2048, 2⟩ ℕ ↔ HasRoom ⟨1024, 2048, 2⟩ :=
  room_iff ⟨1024, 2048, 2⟩ ⟨by decide, by decide, by decide, by decide, by decide⟩

/-- Three keys in three buckets of one slot: keys 2 and 3 have the same bucket. -/
theorem bucket_overflows : ¬ ∀ z : Sizes, z.Accepted → NeverFull z ℕ := by
  intro h
  have hz : (⟨3, 3, 1⟩ : Sizes).Accepted := ⟨by decide, by decide, by decide, by decide, by decide⟩
  have hroom := hasRoom_of_neverFull hz (h _ hz) 2
  have hcap : (⟨3, 3, 1⟩ : Sizes).capacity = 1 := by decide
  have hsub : ({2, 3} : Set CInt) ⊆ {k | (⟨3, 3, 1⟩ : Sizes).InRange k ∧ bucketOf ⟨3, 3, 1⟩ k = 2} := by
    rintro k (rfl | rfl)
    · exact ⟨⟨by decide, by decide⟩, by decide⟩
    · exact ⟨⟨by decide, by decide⟩, by decide⟩
  have hle := (Set.ncard_le_ncard hsub (finite_keys _)).trans hroom
  rw [Set.ncard_pair (by decide), hcap] at hle
  exact absurd hle (by decide)

/-! ### Powers of two -/

theorem InRange.toNat {k : CInt} (h : z.InRange k) : k.toInt = k.toNat ∧ k.toNat < 2 ^ 31 := by
  obtain ⟨h, -⟩ := h
  have hlt := k.isLt
  have hint := BitVec.toInt_eq_toNat_cond k
  split at hint
  · exact ⟨hint, by omega⟩
  · omega

/-- A mask of ones is a modulus. -/
theorem bucketOf_pow {m : ℕ} (hz : z.Accepted) (hm : z.maxhtlength.toNat = 2 ^ m) {k : CInt}
    (hk : z.InRange k) : bucketOf z k = k.toNat % 2 ^ m := by
  obtain ⟨h1, h2⟩ := hz.buckets
  obtain ⟨hint, hlt⟩ := InRange.toNat hk
  have hmsb : k.msb = false := by
    rw [BitVec.msb_eq_decide]
    simp only [decide_eq_false_iff_not, not_le]
    omega
  have hle : k.toNat % 2 ^ m ≤ k.toNat := Nat.mod_le _ _
  have hkmod : k.toNat % 2 ^ 64 = k.toNat := by omega
  rw [bucketOf, TableClass.bucketOf, masks_arrayMap.addr, hashedAddr, BitVec.toNat_setWidth,
    BitVec.toNat_and, masks_arrayMap.hash h1 h2, KeyHasher.hash,
    BitVec.signExtend_eq_setWidth_of_msb_false hmsb, BitVec.toNat_setWidth,
    hkmod, hm, Nat.and_two_pow_sub_one_eq_mod]
  exact Nat.mod_eq_of_lt (by omega)

/-- With a power of two of buckets there is room if there are as many slots as keys. -/
theorem hasRoom_of_pow {m : ℕ} (hz : z.Accepted) (hm : z.maxhtlength.toNat = 2 ^ m)
    (hr : z.range.toNat ≤ z.capacity * 2 ^ m) : HasRoom z := by
  intro a
  have hpos : 0 < 2 ^ m := Nat.two_pow_pos m
  -- the keys of a bucket come one to each block of `2 ^ m` keys
  have hmaps : ∀ k ∈ {k | z.InRange k ∧ bucketOf z k = a}, (k.toNat - 1) / 2 ^ m < z.capacity := by
    rintro k ⟨hk, -⟩
    obtain ⟨hint, -⟩ := InRange.toNat hk
    obtain ⟨h1, h2⟩ := hk
    rw [Nat.div_lt_iff_lt_mul hpos]
    omega
  have hinj : Set.InjOn (fun k : CInt => (k.toNat - 1) / 2 ^ m)
      {k | z.InRange k ∧ bucketOf z k = a} := by
    rintro j ⟨hj, hja⟩ k ⟨hk, hka⟩ he
    have he : (j.toNat - 1) / 2 ^ m = (k.toNat - 1) / 2 ^ m := he
    rw [bucketOf_pow hz hm hj] at hja
    rw [bucketOf_pow hz hm hk, ← hja] at hka
    have hj1 : 1 ≤ j.toNat := by
      have := (InRange.toNat hj).1
      have := hj.1
      omega
    have hk1 : 1 ≤ k.toNat := by
      have := (InRange.toNat hk).1
      have := hk.1
      omega
    have hmod : (k.toNat - 1) % 2 ^ m = (j.toNat - 1) % 2 ^ m :=
      (Nat.ModEq.add_right_cancel' 1 (by
        rw [Nat.ModEq, Nat.sub_add_cancel hk1, Nat.sub_add_cancel hj1]
        exact hka) : (k.toNat - 1) ≡ (j.toNat - 1) [MOD 2 ^ m])
    have hjd := Nat.div_add_mod (j.toNat - 1) (2 ^ m)
    have hkd := Nat.div_add_mod (k.toNat - 1) (2 ^ m)
    rw [hmod, ← he] at hkd
    exact BitVec.eq_of_toNat_eq (by omega)
  have hle := Set.ncard_le_ncard_of_injOn (t := (Finset.range z.capacity : Set ℕ)) _
    (fun k hk => by simpa using hmaps k hk) hinj (Finset.finite_toSet _)
  rwa [Set.ncard_coe_finset, Finset.card_range] at hle

end table

end ArrayMapTable

end Ascylib
