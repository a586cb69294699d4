/-
# Hindsight

A traversal that never validates stands on a node it `Met`: one that was
linked at some moment of its window, but may be linked no more. `Hindsight`
says that a met node still shows what it showed at some moment of the window
at which it was linked, so what the traversal reads now was true then. It is
kept by every step that leaves the nodes alone once they are unlinked
(`Hindsight.step`).
-/
import Mathlib.Data.Set.Insert

namespace Concur

variable {σ α β : Type*} {lnk : σ → α → Prop} {view : σ → α → β} {W W' : Set σ} {s s' : σ}

/-- The node was linked at some moment of the window. -/
def Met (lnk : σ → α → Prop) (W : Set σ) (x : α) : Prop := ∃ s ∈ W, lnk s x

theorem Met.mono {x : α} (h : Met lnk W x) (hW : W ⊆ W') : Met lnk W' x :=
  let ⟨s, hs, hx⟩ := h
  ⟨s, hW hs, hx⟩

theorem Met.insert {x : α} (h : Met lnk W x) (s' : σ) : Met lnk (insert s' W) x :=
  h.mono (Set.subset_insert _ _)

/-- A met node shows what it showed when it was linked. -/
def Hindsight (lnk : σ → α → Prop) (view : σ → α → β) (W : Set σ) (s : σ) : Prop :=
  ∀ x, Met lnk W x → ∃ s₀ ∈ W, lnk s₀ x ∧ view s₀ x = view s x

theorem Hindsight.singleton (s : σ) : Hindsight lnk view {s} s := by
  rintro x ⟨s₀, rfl, hx⟩
  exact ⟨s₀, rfl, hx, rfl⟩

/-- **Steps that leave unlinked nodes alone keep hindsight.** -/
theorem Hindsight.step (h : Hindsight lnk view W s)
    (hs : ∀ x, Met lnk W x → ¬ lnk s' x → view s' x = view s x) :
    Hindsight lnk view (insert s' W) s' := by
  rintro x ⟨s₁, hs₁, hx⟩
  by_cases hx' : lnk s' x
  · exact ⟨s', Set.mem_insert _ _, hx', rfl⟩
  · rcases Set.mem_insert_iff.mp hs₁ with rfl | hs₁
    · exact absurd hx hx'
    · obtain ⟨s₀, h0, hx0, hv⟩ := h x ⟨s₁, hs₁, hx⟩
      exact ⟨s₀, Set.mem_insert_of_mem _ h0, hx0, by rw [hv, hs x ⟨s₁, hs₁, hx⟩ hx']⟩

end Concur
