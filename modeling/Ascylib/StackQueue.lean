/-
# The stack and queue interface, and the lists it stands for

`src/stack_queue.h`: `add` puts an item in, `remove` takes one out and
returns it, or 0 when there is none, so clients add items other than 0. A queue
gives back the oldest item (`queueObject`) and a stack the newest
(`stackObject`).

In a linearizable run nothing is lost and nothing comes out twice: with no call
running, the items inside are those of the adds less those of the removes,
counted with any weight (`LinearizableIf.balance`), so also by number
(`LinearizableIf.length`) and one by one (`LinearizableIf.count`).
-/
import Ascylib.Search

namespace Ascylib

open Concur

/-- The calls of the interface. -/
inductive SqCall (V : Type*) where
  | add (item : V)
  | remove
  deriving DecidableEq

/-- The clients' part: items other than 0. -/
def SqClient {V : Type*} [Zero V] (op : SqCall V) : Prop := ∀ v, op = .add v → v ≠ 0

variable {V : Type*} [Zero V]

/-- First in, first out. -/
def queueObject (V : Type*) [Zero V] : Object (SqCall V) (Answer V) (List V) where
  init := []
  apply
    | .add v, l => (l ++ [v], .flag true)
    | .remove, [] => ([], .val 0)
    | .remove, v :: l => (l, .val v)

/-- Last in, first out. -/
def stackObject (V : Type*) [Zero V] : Object (SqCall V) (Answer V) (List V) where
  init := []
  apply
    | .add v, l => (v :: l, .flag true)
    | .remove, [] => ([], .val 0)
    | .remove, v :: l => (l, .val v)

/-- What a stack and a queue share: an add puts its item in, and a remove takes
out the item that it returns. -/
structure IsBag (O : Object (SqCall V) (Answer V) (List V)) : Prop where
  init : O.init = []
  add : ∀ v l, (O.apply (.add v) l).1.Perm (v :: l)
  nil : O.apply .remove [] = ([], .val 0)
  remove : ∀ v l, O.apply .remove (v :: l) = (l, .val v)

theorem isBag_queue : IsBag (queueObject V) where
  init := rfl
  add v l := List.perm_append_singleton v l
  nil := rfl
  remove _ _ := rfl

theorem isBag_stack : IsBag (stackObject V) where
  init := rfl
  add _ _ := List.Perm.refl _
  nil := rfl
  remove _ _ := rfl

/-! ### The items along a run -/

section balance

variable [DecidableEq V] {Tid σ L ι : Type*}

/-- What an answered call adds to the weight of the items inside. -/
def worth (w : V → ℤ) : SqCall V → Answer V → ℤ
  | .add v, _ => w v
  | .remove, .val v => if v = 0 then 0 else -w v
  | .remove, .flag _ => 0

/-- What the returned calls have added. -/
def total (w : V → ℤ) : Trace Tid (SqCall V) (Answer V) σ L → ℤ
  | [] => 0
  | (.ret _ op r, _) :: es => total w es + worth w op r
  | _ :: es => total w es

/-- The items added by calls that have returned. -/
def added (es : Trace Tid (SqCall V) (Answer V) σ L) : List V :=
  es.filterMap fun p => match p.1 with
    | .ret _ (.add v) _ => some v
    | _ => none

/-- The items that removes have returned. -/
def taken (es : Trace Tid (SqCall V) (Answer V) σ L) : List V :=
  es.filterMap fun p => match p.1 with
    | .ret _ .remove (.val v) => if v = 0 then none else some v
    | _ => none

theorem total_eq (w : V → ℤ) (es : Trace Tid (SqCall V) (Answer V) σ L) :
    total w es = ((added es).map w).sum - ((taken es).map w).sum := by
  induction es with
  | nil => simp [total, added, taken]
  | cons p es ih =>
    obtain ⟨e, c⟩ := p
    have hother : total w es = ((added es).map w).sum - ((taken es).map w).sum := ih
    cases e with
    | call t op => simpa [total, added, taken] using hother
    | tau t => simpa [total, added, taken] using hother
    | ret t op r =>
      unfold total
      rw [hother]
      rcases op with v | _
      · simp [worth, added, taken]
        ring
      · rcases r with v | b
        · by_cases hv : v = 0
          · simp [worth, added, taken, hv]
          · simp [worth, added, taken, hv]
            ring
        · simp [worth, added, taken]

/-- What a call that has taken effect but not returned has added. -/
def Status.worth (w : V → ℤ) : Status (SqCall V) (Answer V) → ℤ
  | .done op r => Ascylib.worth w op r
  | _ => 0

/-- The items inside an atomic stack or queue, with its calls under way. -/
structure Weighed [Fintype Tid] (w : V → ℤ) (n : ℤ) (a : Atomic Tid (SqCall V) (Answer V) (List V)) :
    Prop where
  item : ∀ v ∈ a.state, v ≠ 0
  pending : ∀ t v, a.status t = .pending (.add v) → v ≠ 0
  weight : (a.state.map w).sum = n + ∑ t, Status.worth w (a.status t)

variable [DecidableEq Tid] [Fintype Tid] {w : V → ℤ} {n : ℤ}
  {a b : Atomic Tid (SqCall V) (Answer V) (List V)} {O : Object (SqCall V) (Answer V) (List V)}

/-- One status changes: the sum changes by the difference. -/
theorem sum_worth_update (f : Tid → Status (SqCall V) (Answer V)) (t : Tid)
    (x : Status (SqCall V) (Answer V)) :
    ∑ u, Status.worth w (Function.update f t x u) =
      ∑ u, Status.worth w (f u) + (Status.worth w x - Status.worth w (f t)) := by
  have h : ∀ u, Status.worth w (Function.update f t x u) =
      Status.worth w (f u) + if u = t then Status.worth w x - Status.worth w (f t) else 0 := by
    intro u
    by_cases hu : u = t
    · subst hu; simp
    · simp [hu]
  simp [h, Finset.sum_add_distrib]

theorem Weighed.lin (hO : IsBag O) (h : Weighed w n a) (hab : Atomic.Lin O a b) : Weighed w n b := by
  obtain ⟨hp⟩ := hab
  rename_i t op
  have hpend : ∀ r u v, Function.update a.status t (.done op r) u = .pending (.add v) → v ≠ 0 := by
    intro r u v hu
    by_cases hut : u = t
    · subst hut; simp at hu
    · exact h.pending u v (by simpa [hut] using hu)
  have hg : Status.worth w (a.status t) = 0 := by rw [hp]; rfl
  have hw := h.weight
  cases op with
  | add v =>
    have hperm := hO.add v a.state
    refine ⟨fun x hx => ?_, hpend _, ?_⟩
    · rcases List.mem_cons.mp (hperm.subset hx) with rfl | hx
      · exact h.pending t x hp
      · exact h.item x hx
    · have hsum := (hperm.map w).sum_eq
      rw [List.map_cons, List.sum_cons] at hsum
      have hd : ∀ r, Status.worth w (.done (.add v) r) = w v := fun _ => rfl
      rw [sum_worth_update, hg, hsum, hw, hd]
      ring
  | remove =>
    rcases hs : a.state with _ | ⟨v, l⟩
    · rw [hO.nil]
      refine ⟨by simp, hpend _, ?_⟩
      rw [hs] at hw
      rw [sum_worth_update, hg, hw]
      simp [Status.worth, worth]
    · rw [hO.remove]
      have hv : v ≠ 0 := h.item v (by rw [hs]; exact List.mem_cons_self)
      refine ⟨fun x hx => h.item x (by rw [hs]; exact List.mem_cons_of_mem v hx), hpend _, ?_⟩
      rw [hs, List.map_cons, List.sum_cons] at hw
      have hd : Status.worth w (.done .remove (.val v)) = -w v := if_neg hv
      rw [sum_worth_update, hg, hd]
      linarith

theorem Weighed.lins (hO : IsBag O) (h : Weighed w n a)
    (hab : Relation.ReflTransGen (Atomic.Lin O) a b) : Weighed w n b := by
  induction hab with
  | refl => exact h
  | tail _ hl ih => exact ih.lin hO hl

variable {P : Program Tid (SqCall V) (Answer V) σ L ι} {ok} {abs : σ → List V}

/-- The items along a linearizable run. -/
theorem weighed_of_linearized (hO : IsBag O) (hpre : ∀ op, P.pre op → SqClient op) {es c a}
    (hr : P.RunIf ok es c) (h : Linearized O P abs es a) : Weighed w (total w es) a := by
  induction h generalizing c with
  | init =>
    refine ⟨?_, by simp [Atomic.initial], ?_⟩ <;>
      simp [Atomic.initial, hO.init, total, Status.worth]
  | @step es a e c' b _ hab _ ih =>
    cases hr with
    | step hr hst _ =>
    obtain ⟨a₁, b₁, h1, h2, h3⟩ := hab
    have h1 := (ih hr).lins hO h1
    refine Weighed.lins hO ?_ h3
    cases h2 with
    | @call t op hidle =>
      refine ⟨h1.item, fun u v hu => ?_, ?_⟩
      · by_cases hut : u = t
        · subst hut
          simp only [Atomic.set, Function.update_self, Status.pending.injEq] at hu
          cases hst with | call _ hp => exact hpre op hp v hu
        · exact h1.pending u v (by simpa [Atomic.set, hut] using hu)
      · have hw := h1.weight
        simp only [Atomic.set]
        rw [sum_worth_update, hidle, hw]
        simp [total, Status.worth]
    | tau => exact h1
    | @ret t op r hd =>
      refine ⟨h1.item, fun u v hu => ?_, ?_⟩
      · by_cases hut : u = t
        · subst hut; simp [Atomic.set] at hu
        · exact h1.pending u v (by simpa [Atomic.set, hut] using hu)
      · have hw := h1.weight
        simp only [Atomic.set]
        rw [sum_worth_update, hd, hw]
        simp only [total, Status.worth]
        ring

variable (hl : LinearizableIf O P ok abs) (hO : IsBag O) (hpre : ∀ op, P.pre op → SqClient op)

include hl hO hpre

variable {es : Trace Tid (SqCall V) (Answer V) σ L} {c : Config Tid (SqCall V) σ L}
  (hr : P.RunIf ok es c) (hidle : ∀ t, c.threads t = none)

include hr hidle

/-- **With no call running, what is inside is what was added and not taken.** -/
theorem LinearizableIf.balance (w : V → ℤ) :
    ((abs c.shared).map w).sum = ((added es).map w).sum - ((taken es).map w).sum := by
  obtain ⟨a, ha⟩ := hl es c hr
  have hw := (weighed_of_linearized (w := w) hO hpre hr ha).weight
  have hs : ∑ t, Status.worth w (a.status t) = 0 :=
    Finset.sum_eq_zero fun t _ => by rw [(ha.idle_iff hr t).mpr (hidle t)]; rfl
  rw [hs, add_zero, ha.state_eq hr, total_eq] at hw
  exact hw

/-- The final check of the tests: the size is the number of adds less that of
successful removes. -/
theorem LinearizableIf.length :
    (added es).length = (taken es).length + (abs c.shared).length := by
  have h := LinearizableIf.balance hl hO hpre hr hidle fun _ => 1
  simp only [List.map_const', List.sum_replicate, nsmul_eq_mul, mul_one] at h
  omega

theorem LinearizableIf.count (v : V) :
    (added es).count v = (taken es).count v + (abs c.shared).count v := by
  have h := LinearizableIf.balance hl hO hpre hr hidle fun x => if x = v then 1 else 0
  have hcount : ∀ l : List V, (l.map fun x => if x = v then (1 : ℤ) else 0).sum = l.count v := by
    intro l
    induction l with
    | nil => rfl
    | cons x l ih =>
      rw [List.map_cons, List.sum_cons, ih, List.count_cons]
      by_cases hx : x = v
      · simp [hx]
        ring
      · simp [hx]
  rw [hcount, hcount, hcount] at h
  omega

end balance

end Ascylib
