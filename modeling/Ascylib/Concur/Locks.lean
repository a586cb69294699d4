/-
# Who waits for whose lock

At one moment every party holds some locks and may want one more. When a party
only wants a lock that comes after all it holds, in some order of the locks,
no parties wait for each other in a circle (`Ordered.acyclic`), and behind
every party that waits there is one that does not (`Ordered.exists_free`).

Key definitions: `LockTable`, `LockTable.WaitsFor`, `LockTable.Ordered`, `Program.Waits`,
`Locking`, `Program.gained`.
-/
import Ascylib.Concur.Run
import Mathlib.Data.Fintype.Card
import Mathlib.Logic.Relation

namespace Concur

/-- The locks that each party holds, and the one it is asking for. -/
structure LockTable (Tid N : Type*) where
  wants : Tid → Option N
  holds : Tid → Set N

namespace LockTable

variable {Tid N K : Type*} [Preorder K] (L : LockTable Tid N)

/-- `t` asks for a lock that `u` holds. -/
def WaitsFor (t u : Tid) : Prop := ∃ x, L.wants t = some x ∧ x ∈ L.holds u

/-- A party asks for locks in the order of `rank` only. -/
def Ordered (rank : N → K) : Prop :=
  ∀ t x, L.wants t = some x → ∀ y ∈ L.holds t, rank y < rank x

variable {L} {rank : N → K}

/-- Along a chain of waiting parties the wanted locks grow. -/
theorem Ordered.lt (h : L.Ordered rank) {t u : Tid} (hw : Relation.TransGen L.WaitsFor t u)
    {x y : N} (hx : L.wants t = some x) (hy : L.wants u = some y) : rank x < rank y := by
  induction hw generalizing y with
  | single hw =>
    obtain ⟨z, hz, hm⟩ := hw
    cases hx.symm.trans hz
    exact h _ y hy x hm
  | tail _ hw ih =>
    obtain ⟨z, hz, hm⟩ := hw
    exact (ih hz).trans (h _ y hy z hm)

/-- **No parties wait for each other in a circle.** -/
theorem Ordered.acyclic (h : L.Ordered rank) (t : Tid) : ¬ Relation.TransGen L.WaitsFor t t := by
  intro hw
  obtain ⟨u, ⟨x, hx, -⟩, -⟩ := Relation.TransGen.head'_iff.mp hw
  exact lt_irrefl _ (h.lt hw hx hx)

/-- **Behind every party is one that waits for nobody.** -/
theorem Ordered.exists_free [Finite Tid] (h : L.Ordered rank) (t : Tid) :
    ∃ u, Relation.ReflTransGen L.WaitsFor t u ∧ ∀ v, ¬ L.WaitsFor u v := by
  have : IsTrans Tid (flip (Relation.TransGen L.WaitsFor)) := ⟨fun _ _ _ h1 h2 => h2.trans h1⟩
  have : Std.Irrefl (flip (Relation.TransGen L.WaitsFor)) := ⟨h.acyclic⟩
  have hwf : WellFounded (flip (Relation.TransGen L.WaitsFor)) :=
    Finite.wellFounded_of_trans_of_irrefl _
  induction t using hwf.induction with
  | h t ih =>
    by_cases hf : ∃ v, L.WaitsFor t v
    · obtain ⟨v, hv⟩ := hf
      obtain ⟨u, hu, hfree⟩ := ih v (.single hv)
      exact ⟨u, hu.head hv, hfree⟩
    · exact ⟨t, .refl, not_exists.mp hf⟩

end LockTable

/-- The thread is inside a call whose next step cannot be taken. -/
def Program.Waits {Tid Op Res σ L ι : Type*} (P : Program Tid Op Res σ L ι) (c : Config Tid Op σ L)
    (t : Tid) : Prop :=
  ∃ op l, c.threads t = some (op, l) ∧ P.result l = none ∧ ∀ i, P.step i t c.shared op l = none

/-! ### Calls that wait for locks only -/

/-- Which locks are taken in a shared state, and which a local state holds and
asks for. -/
structure Locking (σ L N : Type*) where
  taken : σ → N → Prop
  holds : L → List N
  wants : L → Option N

namespace Locking

variable {Tid Op Res σ L ι N K : Type*} (Q : Locking σ L N)

/-- The locks that the calls hold and ask for. -/
def table (c : Config Tid Op σ L) : LockTable Tid N where
  wants t := (c.threads t).bind fun f => Q.wants f.2
  holds t := {x | ∃ op l, c.threads t = some (op, l) ∧ x ∈ Q.holds l}

/-- A lock that is taken after a step is held by its call, or was taken before
and is not the call's. -/
def Follows (s : σ) (l : L) (s' : σ) (l' : L) : Prop :=
  ∀ x, Q.taken s' x → x ∈ Q.holds l' ∨ x ∉ Q.holds l ∧ Q.taken s x

variable {Q} {s s' : σ} {l l' : L} {y : N}

theorem Follows.same (ht : ∀ x, Q.taken s' x → Q.taken s x) (hh : Q.holds l ⊆ Q.holds l') :
    Q.Follows s l s' l' := by
  intro x hx
  by_cases hm : x ∈ Q.holds l
  · exact Or.inl (hh hm)
  · exact Or.inr ⟨hm, ht x hx⟩

theorem Follows.take (ht : ∀ x, Q.taken s' x → x = y ∨ Q.taken s x) (hy : y ∈ Q.holds l')
    (hh : Q.holds l ⊆ Q.holds l') : Q.Follows s l s' l' := by
  intro x hx
  by_cases hm : x ∈ Q.holds l
  · exact Or.inl (hh hm)
  · rcases ht x hx with rfl | h
    · exact Or.inl hy
    · exact Or.inr ⟨hm, h⟩

theorem Follows.give (ht : ∀ x, Q.taken s' x → x ≠ y ∧ Q.taken s x)
    (hh : ∀ x ∈ Q.holds l, x = y ∨ x ∈ Q.holds l') : Q.Follows s l s' l' := by
  intro x hx
  obtain ⟨hne, h⟩ := ht x hx
  by_cases hm : x ∈ Q.holds l
  · exact Or.inl ((hh x hm).resolve_left hne)
  · exact Or.inr ⟨hm, h⟩

variable [DecidableEq Tid] {P : Program Tid Op Res σ L ι}
  {ok : Trace Tid Op Res σ L → Config Tid Op σ L → Event Tid Op Res → Config Tid Op σ L → Prop}
  {es : Trace Tid Op Res σ L} {c : Config Tid Op σ L}

/-- **A lock that is taken is held by a call.** -/
theorem held_of_taken (hinit : ∀ x, ¬ Q.taken P.init x)
    (hret : ∀ {l r}, P.result l = some r → Q.holds l = [])
    (hstep : ∀ {es c t op l i s' l'}, P.RunIf ok es c → c.threads t = some (op, l) →
      P.result l = none → P.step i t c.shared op l = some (s', l') →
      ok es c (.tau t) ⟨s', Function.update c.threads t (some (op, l'))⟩ →
      Q.Follows c.shared l s' l')
    (hr : P.RunIf ok es c) {x : N} (hx : Q.taken c.shared x) :
    ∃ t op l, c.threads t = some (op, l) ∧ x ∈ Q.holds l :=
  hr.responsible (Q := fun s => Q.taken s x) (A := fun _ l => x ∈ Q.holds l) (hinit x)
    (fun hres hm => by rw [hret hres] at hm; cases hm)
    (fun hr ht hres hst hok hq => hstep hr ht hres hst hok x hq) hx

omit [DecidableEq Tid] in
/-- **As long as there are unfinished calls, not all of them wait**, when a call
waits for a taken lock only and asks for locks in the order of `rank`. -/
theorem progress [Finite Tid] [Preorder K] {rank : N → K} (hord : (Q.table c).Ordered rank)
    (hheld : ∀ x, Q.taken c.shared x → ∃ t op l, c.threads t = some (op, l) ∧ x ∈ Q.holds l)
    (hwait : ∀ t op l, c.threads t = some (op, l) → P.result l = none →
      (∀ i, P.step i t c.shared op l = none) → ∃ x, Q.wants l = some x ∧ Q.taken c.shared x)
    (h : ∃ t, c.threads t ≠ none) : ∃ t, c.threads t ≠ none ∧ ¬ P.Waits c t := by
  obtain ⟨t, ht⟩ := h
  obtain ⟨u, hu, hfree⟩ := hord.exists_free t
  refine ⟨u, ?_, ?_⟩
  · rcases hu.cases_tail with rfl | ⟨v, -, x, -, op, l, hu, -⟩
    · exact ht
    · rw [hu]
      exact Option.some_ne_none _
  · rintro ⟨op, l, hu, hres, hst⟩
    obtain ⟨x, hx, htk⟩ := hwait u op l hu hres hst
    obtain ⟨v, op₁, l₁, hv, hm⟩ := hheld x htk
    exact hfree v ⟨x, by simp [table, hu, hx], op₁, l₁, hv, hm⟩

variable (Q) (P) in
/-- In every run a lock that is taken is held by a call, and as long as there are
unfinished calls, not all of them wait. -/
def Live : Prop :=
  ∀ es c, P.Run es c →
    (∀ x, Q.taken c.shared x → ∃ t op l, c.threads t = some (op, l) ∧ x ∈ Q.holds l) ∧
    ((∃ t, c.threads t ≠ none) → ∃ t, c.threads t ≠ none ∧ ¬ P.Waits c t)

end Locking

/-! ### What a thread has taken -/

section gained

variable {Tid Op Res σ L ι N : Type*}

/-- What the steps of thread `t` have added to `f` since its window opened. -/
def Program.gained (P : Program Tid Op Res σ L ι) (f : σ → Set N) (reset : Op → L → Prop) (t : Tid) :
    Trace Tid Op Res σ L → Set N
  | [] => ∅
  | (e, c) :: es => {x | ¬ Opens reset t e c ∧
      (x ∈ P.gained f reset t es ∨ e = .tau t ∧ x ∈ f c.shared ∧ x ∉ f (P.last es))}

variable {P : Program Tid Op Res σ L ι} {f : σ → Set N} {reset : Op → L → Prop} {t : Tid} {es : Trace Tid Op Res σ L} {e : Event Tid Op Res} {c : Config Tid Op σ L}

theorem Program.gained_of_ne (he : e.thread ≠ t) :
    P.gained f reset t ((e, c) :: es) = P.gained f reset t es := by
  have h1 : ¬ Opens reset t e c := not_opens_of_ne he
  have h2 : e ≠ .tau t := by rintro rfl; exact he rfl
  simp [gained, h1, h2]

theorem Program.gained_tau [DecidableEq Tid] {s : σ} {op : Op} {l : L} :
    P.gained f reset t ((.tau t, ⟨s, Function.update c.threads t (some (op, l))⟩) :: es) =
      {x | ¬ reset op l ∧ (x ∈ P.gained f reset t es ∨ x ∈ f s ∧ x ∉ f (P.last es))} := by
  simp [gained, Opens]

end gained

end Concur
