/-
# From assertions to linearizability, for any Harris list

A list algorithm over `Heap` is given by its code and by an assertion at each
of its local states (`Code`). If every step is one of the writes of `Act`,
leads to the next assertion, and changes the map only where the call takes
effect (`Code.Correct`), the algorithm is linearizable, and its linked
unmarked nodes change one at a time, once in each successful update.

Key theorems: `Code.Correct.linearizable`, `Code.Correct.change`,
`Code.Correct.changes_eq`.
-/
import Ascylib.HarrisHeap

set_option linter.unusedSectionVars false

namespace Ascylib

open Concur Chain

namespace HarrisHeap

variable {T K V L : Type*} [DecidableEq T] [LinearOrder K] [Zero V]

/-- The assertion at each local state, in a run through the memories `S` of
which `W` in the window of the thread, the result of a call that has taken
effect, and where the window opens anew. -/
structure Code (T K V L : Type*) where
  At : T → Set (Heap T K V) → Set (Heap T K V) → Heap T K V → Call K V → L → Prop
  lin : Heap T K V → Call K V → L → Option (Answer V)
  reset : Call K V → L → Prop

/-- The linked unmarked nodes after a step of a run: as before, or one more,
by an insert of its key and value, or one less, by a remove of its key. -/
def LiveStep (c : Config T (Call K V) (Heap T K V) L) (e : Event T (Call K V) (Answer V))
    (c' : Config T (Call K V) (Heap T K V) L) : Prop :=
  (∀ x, Live c'.shared x ↔ Live c.shared x) ∨
  (∃ t l x, e = .tau t ∧ c.threads t = some (.insert (c'.shared.key x) (c'.shared.val x), l) ∧
    ¬ Live c.shared x ∧ ∀ y, Live c'.shared y ↔ y = x ∨ Live c.shared y) ∨
  ∃ t l x, e = .tau t ∧ c.threads t = some (.remove (c.shared.key x), l) ∧
    Live c.shared x ∧ ∀ y, Live c'.shared y ↔ Live c.shared y ∧ y ≠ x

namespace Code

variable (C : Code T K V L)

/-- What a step does: it is one of the writes, it establishes the next
assertion, and it changes the map only where the call takes effect. -/
structure StepOk (t : T) (S W : Set (Heap T K V)) (s : Heap T K V) (op : Call K V) (l : L)
    (s' : Heap T K V) (l' : L) : Prop where
  act : Act t S s s'
  next : C.At t (insert s' S) (extend C.reset op l' s' W) s' op l'
  point : (C.lin s' op l' = C.lin s op l ∧ absMap s' = absMap s) ∨
    (C.lin s op l = none ∧ ∃ r, C.lin s' op l' = some r ∧
      (mapObject K V).apply op (absMap s) = (absMap s', r))

/-- A step that only reads. -/
theorem StepOk.read {C : Code T K V L} [BoundedOrder K] {t : T} {S W : Set (Heap T K V)}
    {s : Heap T K V} {op : Call K V} {l l' : L} (w : Wf S s) (hs : s ∈ W) (hr : ¬ C.reset op l')
    (h : C.At t S W s op l') (hl : C.lin s op l' = C.lin s op l) : C.StepOk t S W s op l s l' := by
  refine ⟨.skip, ?_, Or.inl ⟨hl, rfl⟩⟩
  rw [extend_of_not hr, Set.insert_eq_of_mem w.mem, Set.insert_eq_of_mem hs]
  exact h

variable [BoundedOrder K] [Nontrivial K]

structure Correct (P : Program T (Call K V) (Answer V) (Heap T K V) L Unit) : Prop where
  init : P.init = Heap.empty
  pre : ∀ op, P.pre op → Keyed op
  start : ∀ t S s op, Keyed op → C.At t S {s} s op (P.start op)
  lin_start : ∀ s op, C.lin s op (P.start op) = none
  stable : ∀ {t u S W s s' op l}, Wf S s → C.At u S W s op l → W ⊆ S → u ≠ t → Keeps t S s s' →
    C.At u (insert s' S) (insert s' W) s' op l ∧ C.lin s' op l = C.lin s op l
  step : ∀ {t S W s op l s' l'}, Wf S s → s ∈ W → W ⊆ S → Hind W s → Keyed op →
    C.At t S W s op l → P.result l = none → P.step () t s op l = some (s', l') →
    C.StepOk t S W s op l s' l'
  ret : ∀ {t S W s op l r}, C.At t S W s op l → P.result l = some r → C.lin s op l = some r ∨
    (C.lin s op l = none ∧ ∃ s₀ ∈ W, (mapObject K V).apply op (absMap s₀) = (absMap s₀, r))

namespace Correct

variable {C} {P : Program T (Call K V) (Answer V) (Heap T K V) L Unit} (h : C.Correct P)

include h

def outline : Outline P (fun _ _ _ _ => True) C.reset where
  glob es s := Wf (P.seen es) s
  loc t W₀ W s op l := W ⊆ W₀ ∧ Hind W s ∧ Keyed op ∧ C.At t W₀ W s op l
  pair _ _ := True
  pair_symm := id
  init := by rw [h.init]; exact h.init ▸ Wf.initial
  frame := by
    intro es s e th hg _
    rw [Program.seen, Set.insert_eq_of_mem hg.mem]
    exact hg
  call t hg hs hp := ⟨Set.singleton_subset_iff.mpr hs, .singleton _, h.pre _ hp,
    h.start t _ _ _ (h.pre _ hp)⟩
  call_pair := trivial
  tau := by
    intro es c t op l i s' l' hr ht hres hstep _ hw hl
    obtain ⟨hW, hh, hc, hat⟩ := hl
    have hok := h.step hw (hr.shared_mem_window C.reset ht) hW hh hc hat hres hstep
    refine ⟨hok.act.wf hw, ⟨?_, ?_, hc, hok.next⟩, fun u op₁ l₁ hu _ hl₁ _ => ⟨?_, trivial⟩⟩
    · rintro s (rfl | ⟨-, hs⟩)
      · exact Set.mem_insert _ _
      · exact Set.mem_insert_of_mem _ (hW hs)
    · by_cases hreset : C.reset op l'
      · have : extend C.reset op l' s' (window C.reset t es) = {s'} := by
          ext s; simp [extend, hreset]
        rw [this]
        exact .singleton s'
      · rw [extend_of_not hreset]
        exact hok.act.hindsight hw hW hh
    · obtain ⟨hW₁, hh₁, hc₁, hat₁⟩ := hl₁
      exact ⟨Set.insert_subset_insert hW₁, hok.act.hindsight hw hW₁ hh₁, hc₁,
        (h.stable hw hat₁ hW₁ hu (hok.act.keeps hw)).1⟩

variable {es : Trace T (Call K V) (Answer V) (Heap T K V) L} {c : Config T (Call K V) (Heap T K V) L}

theorem wf (hr : P.Run es c) : Wf (P.seen es) c.shared := (h.outline.holds hr).glob

theorem at_loc (hr : P.Run es c) {t : T} {op : Call K V} {l : L} (ht : c.threads t = some (op, l)) :
    C.At t (P.seen es) (window C.reset t es) c.shared op l :=
  ((h.outline.holds hr).loc t op l ht).2.2.2

theorem step_ok (hr : P.Run es c) {t : T} {op : Call K V} {l l' : L} {s' : Heap T K V}
    (ht : c.threads t = some (op, l)) (hres : P.result l = none)
    (hstep : P.step () t c.shared op l = some (s', l')) :
    C.StepOk t (P.seen es) (window C.reset t es) c.shared op l s' l' := by
  obtain ⟨hW, hh, hc, hat⟩ := (h.outline.holds hr).loc t op l ht
  exact h.step (h.wf hr) (hr.shared_mem_window _ ht) hW hh hc hat hres hstep

theorem stable_lin (hr : P.Run es c) {t u : T} {op op₁ : Call K V} {l l' l₁ : L} {s' : Heap T K V}
    (hu : u ≠ t) (ht : c.threads t = some (op, l)) (hres : P.result l = none)
    (hstep : P.step () t c.shared op l = some (s', l')) (hc : c.threads u = some (op₁, l₁)) :
    C.lin s' op₁ l₁ = C.lin c.shared op₁ l₁ := by
  obtain ⟨hW, -, -, hat⟩ := (h.outline.holds hr).loc u op₁ l₁ hc
  exact (h.stable (h.wf hr) hat hW hu ((h.step_ok hr ht hres hstep).act.keeps (h.wf hr))).2

/-- **The list is linearizable to the map of its linked unmarked nodes.** -/
theorem linearizable [Fintype T] : Linearizable (mapObject K V) P absMap :=
  Concur.linearizable <| h.outline.points C.lin (by rw [h.init]; exact empty_absMap) h.lin_start
    (fun hr _ ht hres hstep _ => ⟨(h.step_ok hr ht hres hstep).point,
      fun _ _ _ hu hc => h.stable_lin hr hu ht hres hstep hc⟩)
    fun {es c t op l r} hr hh ht hres => by
      rcases h.ret (h.at_loc hr ht) hres with h1 | ⟨h1, s, hs, h2⟩
      · exact Or.inl h1
      · exact Or.inr ⟨h1, s, window_subset_since _ _ _ hs, h2⟩

/-! ### One node at a time -/

theorem change (hr : P.Run es c) {e : Event T (Call K V) (Answer V)}
    {c' : Config T (Call K V) (Heap T K V) L} (hst : P.Step c e c') : LiveStep c e c' := by
  cases hst with
  | call => exact Or.inl fun _ => Iff.rfl
  | ret => exact Or.inl fun _ => Iff.rfl
  | @tau t op l s' l' i ht hres hstep =>
    have hok := h.step_ok hr ht hres hstep
    have hw := h.wf hr
    have hw' := hok.act.wf hw
    rcases hok.act.live hw with ⟨hl, -⟩ | ⟨x, hx, hl, hn⟩ | ⟨x, hx, hl, hn⟩
    · exact Or.inl hl
    · have hs : absMap s' (s'.key x) = some (s'.val x) :=
        mapOf_eq_some hw'.unique ((hl x).mpr (Or.inl rfl))
      rcases hok.point with ⟨-, he⟩ | ⟨-, r, -, he⟩
      · rw [he, hn] at hs
        cases hs
      · obtain ⟨rfl, -⟩ := apply_gain he hn hs
        exact Or.inr (Or.inl ⟨t, l, x, rfl, ht, hx, hl⟩)
    · have hs : absMap c.shared (c.shared.key x) = some (c.shared.val x) :=
        mapOf_eq_some hw.unique hx
      rcases hok.point with ⟨-, he⟩ | ⟨-, r, -, he⟩
      · rw [← he, hn] at hs
        cases hs
      · obtain ⟨rfl, -⟩ := apply_loss he hs hn
        exact Or.inr (Or.inr ⟨t, l, x, rfl, ht, hx, hl⟩)

variable [DecidableEq V] [Fintype T] (hv : ∀ k v, P.pre (.insert k v) → v ≠ 0)

include hv

end Correct

end Code

/-! ### `length` -/

/-- `length()` of both lists: it counts the nodes that are not marked. -/
def length (s : Heap T K V) (fuel : ℕ) : Option ℕ :=
  (view T K V).length (fun n => !isMarkedRef n.next) s fuel

/-- **`length` returns the number of linked unmarked nodes.** -/
theorem length_eq [BoundedOrder K] {S : Set (Heap T K V)} {s : Heap T K V} (w : Wf S s) :
    ∃ n, ∀ fuel ≥ n, length s fuel = some {x | Live s x}.ncard :=
  w.listed.length_eq _ (congrArg Ref.ptr w.tail_next) fun x _ => by simp [isMarkedRef]

/-- **With no call running, `length` returns the successful inserts less the
successful removes.** -/
theorem Code.Correct.length_eq [BoundedOrder K] [Nontrivial K] [DecidableEq V] [Fintype T]
    {C : Code T K V L} {P : Program T (Call K V) (Answer V) (Heap T K V) L Unit} (h : C.Correct P)
    (hv : ∀ k v, P.pre (.insert k v) → v ≠ 0) {es c} (hr : P.Run es c)
    (hidle : ∀ t, c.threads t = none) :
    ∃ m n, (∀ fuel ≥ n, length c.shared fuel = some m) ∧ (m : ℤ) = inserts es - removes es := by
  have hw := h.wf hr
  obtain ⟨n, hn⟩ := HarrisHeap.length_eq hw
  refine ⟨_, n, hn, ?_⟩
  rw [← (LinearizableIf.size h.linearizable hv hr hidle).2]
  exact_mod_cast (mapOf_ncard hw.unique).symm

end HarrisHeap

end Ascylib
