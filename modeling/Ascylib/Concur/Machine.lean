/-
# Sequential objects that can fail

A machine gives its first state and what an operation does in a state; where it
is `none`, the operation goes wrong. `Behaves` compares two machines by their
answers to the operations that a client may use. A simulation shows it
(`Behaves.of_sim`), and a part of a larger object that behaves like another
machine stays in step with it (`Twin.step`).

Key definitions: `Machine`, `Machine.Behaves`, `Machine.Twin`.
Key theorems: `Machine.Behaves.of_sim`, `Machine.Twin.step`.
-/
import Mathlib.Data.List.Basic
import Mathlib.Tactic.Common

namespace Concur

structure Machine (Op Res σ : Type*) where
  init : σ
  apply : Op → σ → Option (σ × Res)

namespace Machine

variable {Op Res σ τ : Type*} (M : Machine Op Res σ) (N : Machine Op Res τ)

/-- Operations one after another: the last state, and the answers. -/
def run : List Op → σ → Option (σ × List Res)
  | [], s => some (s, [])
  | op :: ops, s =>
    match M.apply op s with
    | none => none
    | some (s', r) => (run ops s').map fun q => (q.1, r :: q.2)

/-- The answers from the first state on. -/
def answers (ops : List Op) : Option (List Res) := (M.run ops M.init).map Prod.snd

/-- The answers are those of the other machine, to operations that meet `pre`. -/
def Behaves (pre : Op → Prop) : Prop :=
  ∀ ops, (∀ op ∈ ops, pre op) → M.answers ops = N.answers ops

/-- The states after the same operations, with the same answers. -/
def Twin (pre : Op → Prop) (s : σ) (t : τ) : Prop :=
  ∃ ops rs, (∀ op ∈ ops, pre op) ∧ M.run ops M.init = some (s, rs) ∧ N.run ops N.init = some (t, rs)

variable {M N} {pre : Op → Prop} {s s' : σ} {t t' : τ} {op : Op} {ops : List Op} {r : Res}
  {rs : List Res}

theorem run_append (op : Op) (h : M.run ops s = some (s', rs)) :
    M.run (ops ++ [op]) s = (M.apply op s').map fun q => (q.1, rs ++ [q.2]) := by
  induction ops generalizing s rs with
  | nil =>
    cases h
    rcases ha : M.apply op s' with _ | ⟨s₁, r⟩ <;> simp [run, ha]
  | cons o ops ih =>
    rcases ha : M.apply o s with _ | ⟨s₁, r⟩
    · simp [run, ha] at h
    · simp only [run, ha, Option.map_eq_some_iff, Prod.mk.injEq, Prod.exists] at h
      obtain ⟨s₂, rs', hrun, rfl, rfl⟩ := h
      rw [List.cons_append, run, ha]
      simp [ih hrun, Option.map_map, Function.comp_def]

theorem Twin.init (M : Machine Op Res σ) (N : Machine Op Res τ) (pre : Op → Prop) :
    M.Twin N pre M.init N.init := ⟨[], [], nofun, rfl, rfl⟩

/-- Machines that behave alike answer alike in twin states. -/
theorem Twin.step (h : M.Twin N pre s t) (hb : M.Behaves N pre) (hop : pre op)
    (ha : N.apply op t = some (t', r)) : ∃ s', M.apply op s = some (s', r) ∧ M.Twin N pre s' t' := by
  obtain ⟨ops, rs, hpre, hM, hN⟩ := h
  have hpre' : ∀ o ∈ ops ++ [op], pre o := by
    intro o ho
    rcases List.mem_append.mp ho with ho | ho
    · exact hpre o ho
    · exact (List.mem_singleton.mp ho) ▸ hop
  have hN' := run_append op hN
  have hM' := run_append op hM
  have heq := hb _ hpre'
  rw [answers, answers, hN', hM', ha] at heq
  rcases hs : M.apply op s with _ | ⟨s', r'⟩
  · simp [hs] at heq
  · have hr : r' = r := by simpa [hs] using heq
    subst hr
    exact ⟨s', rfl, ops ++ [op], rs ++ [r'], hpre', by rw [hM', hs]; rfl, by rw [hN', ha]; rfl⟩

/-- A relation that every operation keeps, with the same answer, holds after any run. -/
theorem run_of_sim (R : σ → τ → Prop)
    (hstep : ∀ {s t op}, R s t → pre op →
      ∃ s' t' r, M.apply op s = some (s', r) ∧ N.apply op t = some (t', r) ∧ R s' t') :
    ∀ ops s t, R s t → (∀ op ∈ ops, pre op) →
      ∃ s' t' rs, M.run ops s = some (s', rs) ∧ N.run ops t = some (t', rs) ∧ R s' t' := by
  intro ops
  induction ops with
  | nil => exact fun s t h _ => ⟨s, t, [], rfl, rfl, h⟩
  | cons op ops ih =>
    intro s t h hpre
    obtain ⟨s₁, t₁, r, hM, hN, h₁⟩ := hstep h (hpre op (List.mem_cons_self ..))
    obtain ⟨s', t', rs, hM', hN', h'⟩ := ih s₁ t₁ h₁ fun o ho => hpre o (List.mem_cons_of_mem _ ho)
    exact ⟨s', t', r :: rs, by simp [run, hM, hM'], by simp [run, hN, hN'], h'⟩

/-- **A simulation from the first states on shows that the machines behave alike.** -/
theorem Behaves.of_sim (R : σ → τ → Prop) (hinit : R M.init N.init)
    (hstep : ∀ {s t op}, R s t → pre op →
      ∃ s' t' r, M.apply op s = some (s', r) ∧ N.apply op t = some (t', r) ∧ R s' t') :
    M.Behaves N pre := by
  intro ops hpre
  obtain ⟨s', t', rs, hM, hN, -⟩ := run_of_sim R hstep ops _ _ hinit hpre
  rw [answers, answers, hM, hN]
  rfl

end Machine

end Concur
