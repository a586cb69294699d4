/-
# Lock-free programs

A program is lock-free if in every run that goes on for ever, whatever the
scheduler does, calls return again and again (`LockFree`). A rank of the whole
configuration that goes down at every step of a call proves it, since without a
return there are only finitely many new calls (`lockFree_of_rank`).

Most such ranks have two parts (`lockFree_of_credit`). A step that can set other
calls back uses up a credit, of which the running calls have finitely many. Any
other step brings its own call nearer to the end and sets no call back. Credits
may be counted call by call (`tally`). Where calls go through phases, as in
`Program.Nearer`, the phases that are left are credits too (`lockFree_of_phase`).

A program is not lock-free if from some moment on it can always take a step that
is no return (`not_lockFree`).

Key definitions: `Program.LockFree`, `tally`, `rounds`.
Key theorems: `Program.lockFree_of_rank`, `Program.lockFree_of_credit`,
`Program.lockFree_of_phase`, `Program.not_lockFree`.
-/
import Ascylib.Concur.Refs
import Ascylib.Concur.Solo
import Mathlib.Algebra.BigOperators.Group.Finset.Basic
import Mathlib.Algebra.Order.BigOperators.Group.Finset
import Mathlib.Data.DFinsupp.WellFounded
import Mathlib.Data.Set.Card

namespace Concur

variable {Tid Op Res σ L ι : Type*} [DecidableEq Tid]

/-! ### Runs that go on for ever -/

namespace Program

/-- The first `n` events of a sequence, newest first. -/
def first (r : ℕ → Event Tid Op Res × Config Tid Op σ L) : ℕ → Trace Tid Op Res σ L
  | 0 => []
  | n + 1 => r n :: first r n

variable (P : Program Tid Op Res σ L ι)
  (ok : Trace Tid Op Res σ L → Config Tid Op σ L → Event Tid Op Res → Config Tid Op σ L → Prop)

/-- The configuration before the next event. -/
def present (r : ℕ → Event Tid Op Res × Config Tid Op σ L) : ℕ → Config Tid Op σ L
  | 0 => P.initial
  | n + 1 => (r n).2

/-- A run that goes on for ever. -/
def Endless (r : ℕ → Event Tid Op Res × Config Tid Op σ L) : Prop :=
  ∀ n, P.RunIf ok (first r n) (P.present r n)

/-- **Lock-freedom**: in a run that goes on for ever, after every moment some call
returns. -/
def LockFree : Prop :=
  ∀ r, P.Endless ok r → ∀ n, ∃ m, n ≤ m ∧ ∃ t op x, (r m).1 = .ret t op x

variable {P ok}

/-- The next event is a step. -/
theorem Endless.step {r : ℕ → Event Tid Op Res × Config Tid Op σ L} (h : P.Endless ok r) (n : ℕ) :
    P.Step (P.present r n) (r n).1 (r n).2 ∧ ok (first r n) (P.present r n) (r n).1 (r n).2 := by
  have hn : P.RunIf ok (first r n) (P.present r n) := h n
  have hsucc : P.RunIf ok (r n :: first r n) (r n).2 := h (n + 1)
  generalize r n = p at hsucc
  cases hsucc with
  | step hr hst hok =>
    obtain rfl := hr.config_eq.symm.trans hn.config_eq
    exact ⟨hst, hok⟩

/-- A run that is prolonged for ever, event by event, goes on for ever. -/
theorem endless_of_chain {chain : ℕ → Trace Tid Op Res σ L}
    (hrun : ∀ k, ∃ c, P.RunIf ok (chain k) c)
    (hsucc : ∀ k, ∃ p, chain (k + 1) = p :: chain k) :
    ∃ r, P.Endless ok r ∧ ∀ m, (chain (m + 1))[(chain 0).length]? = some (r m) := by
  have hlen : ∀ k, (chain k).length = (chain 0).length + k := by
    intro k
    induction k with
    | zero => rfl
    | succ k ih =>
      obtain ⟨p, hp⟩ := hsucc k
      rw [hp, List.length_cons, ih]
      omega
  have hlt : ∀ m, (chain 0).length < (chain (m + 1)).length := fun m => by
    rw [hlen (m + 1)]
    omega
  -- the events of the first run come first
  have hfirst : ∀ n, first (fun m => (chain (m + 1)).get ⟨_, hlt m⟩) n =
      (chain n).drop (chain 0).length := by
    intro n
    induction n with
    | zero => simp [first]
    | succ n ih =>
      obtain ⟨p, hp⟩ := hsucc n
      rw [first, ih, List.drop_eq_getElem_cons (hlt n), List.get_eq_getElem]
      simp only [hp, List.drop_succ_cons]
  refine ⟨fun m => (chain (m + 1)).get ⟨_, hlt m⟩, fun n => ?_, fun m => by simp [hlt m]⟩
  obtain ⟨c, hc⟩ := hrun n
  rw [← List.take_append_drop (chain 0).length (chain n)] at hc
  obtain ⟨c, hc⟩ := hc.of_append
  rw [← hfirst] at hc
  rcases n with _ | n
  · cases hc
    exact .init
  · have hlast : c = P.present (fun m => (chain (m + 1)).get ⟨_, hlt m⟩) (n + 1) :=
      hc.config_eq.symm
    rwa [← hlast]

/-- **A program that can go on for ever without a return is not lock-free.** -/
theorem not_lockFree (stuck : Config Tid Op σ L → Prop)
    (hstep : ∀ {es c}, P.RunIf ok es c → stuck c → ∃ e c', P.Step c e c' ∧ ok es c e c' ∧
      (∀ t op x, e ≠ .ret t op x) ∧ stuck c')
    {es c} (hr : P.RunIf ok es c) (hs : stuck c) : ¬ P.LockFree ok := by
  -- the runs that end in such a configuration, and what prolongs them
  let Stuck := {q : Trace Tid Op Res σ L × Config Tid Op σ L // P.RunIf ok q.1 q.2 ∧ stuck q.2}
  have hnext : ∀ q : Stuck, ∃ q' : Stuck, ∃ p, q'.1.1 = p :: q.1.1 ∧
      ∀ t op x, p.1 ≠ .ret t op x := by
    rintro ⟨⟨es, c⟩, hr, hs⟩
    obtain ⟨e, c', hst, hok, hne, hs'⟩ := hstep hr hs
    exact ⟨⟨((e, c') :: es, c'), .step hr hst hok, hs'⟩, (e, c'), rfl, hne⟩
  choose next hnext using hnext
  let runs := fun k => next^[k] ⟨(es, c), hr, hs⟩
  have hsucc : ∀ k, ∃ p, (runs (k + 1)).1.1 = p :: (runs k).1.1 ∧ ∀ t op x, p.1 ≠ .ret t op x := by
    intro k
    simp only [runs, Function.iterate_succ_apply']
    exact hnext _
  have hnew : ∀ j k, ∀ p, (runs (k + (j + 1))).1.1[j]? = some p → ∀ t op x, p.1 ≠ .ret t op x := by
    intro j
    induction j with
    | zero =>
      intro k p hp
      obtain ⟨q, hq, hne⟩ := hsucc k
      rw [Nat.zero_add, hq, List.getElem?_cons_zero] at hp
      exact Option.some.inj hp ▸ hne
    | succ j ih =>
      intro k p hp
      obtain ⟨q, hq, -⟩ := hsucc (k + (j + 1))
      rw [show k + (j + 1 + 1) = k + (j + 1) + 1 by omega, hq, List.getElem?_cons_succ] at hp
      exact ih k p hp
  intro h
  obtain ⟨r, hr, hget⟩ : ∃ r, P.Endless ok r ∧
      ∀ m, ((runs (m + 1)).1.1)[(runs 0).1.1.length]? = some (r m) :=
    endless_of_chain (fun k => ⟨_, (runs k).2.1⟩) fun k => (hsucc k).imp fun _ h => h.1
  obtain ⟨m, hm, t, op, x, hret⟩ := h r hr es.length
  have hlen : (runs 0).1.1.length = es.length := rfl
  have hp := hget m
  rw [hlen, show m + 1 = m - es.length + (es.length + 1) by omega] at hp
  exact hnew _ _ _ hp t op x hret

/-! ### Ranks -/

/-- How many threads are not inside a call. -/
noncomputable def idle (c : Config Tid Op σ L) : ℕ := {t | c.threads t = none}.ncard

section rank

variable [Finite Tid] {c : Config Tid Op σ L} {t : Tid}

theorem idle_call (h : c.threads t = none) (x : Op × L) :
    idle ⟨c.shared, Function.update c.threads t (some x)⟩ < idle c := by
  refine Set.ncard_lt_ncard ⟨fun u hu => ?_, fun hsub => ?_⟩ (Set.toFinite _)
  · rcases eq_or_ne u t with rfl | hne
    · exact h
    · simpa [hne] using hu
  · have ht := hsub h
    simp at ht

omit [Finite Tid] in
theorem idle_tau {x : Op × L} (h : c.threads t = some x) (s' : σ) (y : Op × L) :
    idle ⟨s', Function.update c.threads t (some y)⟩ = idle c := by
  unfold idle
  congr 1
  ext u
  rcases eq_or_ne u t with rfl | hne
  · simp [h]
  · simp [hne]

/-- **A rank that goes down at every step of a call.** -/
theorem lockFree_of_rank {W : Type*} [Preorder W] [WellFoundedLT W] (rank : Config Tid Op σ L → W)
    (hstep : ∀ {es c t op l i s' l'}, P.RunIf ok es c → c.threads t = some (op, l) →
      P.result l = none → P.step i t c.shared op l = some (s', l') →
      ok es c (.tau t) ⟨s', Function.update c.threads t (some (op, l'))⟩ →
      rank ⟨s', Function.update c.threads t (some (op, l'))⟩ < rank c) : P.LockFree ok := by
  intro r hr n
  by_contra hno
  push Not at hno
  -- without a return, each new call leaves one thread fewer that may call
  obtain ⟨k, hk⟩ := WellFounded.not_rel_apply_succ (r := (· < ·)) fun k =>
    toLex (idle (P.present r (n + k)), rank (P.present r (n + k)))
  apply hk
  have hret := hno (n + k) (Nat.le_add_right n k)
  have hrun := hr (n + k)
  obtain ⟨hst, hok⟩ := hr.step (n + k)
  show toLex (idle (r (n + k)).2, rank (r (n + k)).2) < _
  generalize r (n + k) = p at hret hst hok
  obtain ⟨e, c'⟩ := p
  cases hst with
  | call hidle => exact lex_left (idle_call hidle _)
  | tau i ht hres hst =>
    rw [idle_tau ht]
    exact lex_right (hstep hrun ht hres hst hok)
  | ret => exact absurd rfl (hret _ _ _)

/-- **A step that can set other calls back uses up a credit.** -/
theorem lockFree_of_credit {W₀ W : Type*} [PartialOrder W₀] [WellFoundedLT W₀] [Preorder W]
    [WellFoundedLT W] (credit : Config Tid Op σ L → W₀) (rank : σ → Op → L → W)
    (hstep : ∀ {es c t op l i s' l'}, P.RunIf ok es c → c.threads t = some (op, l) →
      P.result l = none → P.step i t c.shared op l = some (s', l') →
      ok es c (.tau t) ⟨s', Function.update c.threads t (some (op, l'))⟩ →
      credit ⟨s', Function.update c.threads t (some (op, l'))⟩ < credit c ∨
      credit ⟨s', Function.update c.threads t (some (op, l'))⟩ ≤ credit c ∧
        rank s' op l' < rank c.shared op l ∧
        ∀ u op₁ l₁, u ≠ t → c.threads u = some (op₁, l₁) →
          rank s' op₁ l₁ ≤ rank c.shared op₁ l₁) : P.LockFree ok := by
  refine lockFree_of_rank (fun c => toLex (credit c, fun t : Tid =>
    (c.threads t).elim (⊥ : WithBot W) fun x => ((rank c.shared x.1 x.2 : W) : WithBot W))) ?_
  intro es c t op l i s' l' hr ht hres hst hok
  rcases hstep hr ht hres hst hok with h | ⟨h, hown, hother⟩
  · exact lex_left h
  · rcases h.lt_or_eq with h | h
    · exact lex_left h
    · rw [h]
      refine lex_right (Pi.lt_def.mpr ⟨fun u => ?_, t, ?_⟩)
      · rcases eq_or_ne u t with rfl | hu
        · simpa [ht] using hown.le
        · rcases hc : c.threads u with _ | ⟨op₁, l₁⟩
          · simp [hu, hc]
          · simpa [hu, hc] using hother u op₁ l₁ hu hc
      · simpa [ht] using hown

end rank

/-- A rank behind the question whether the call is fresh. -/
noncomputable def anew {W : Type*} (fresh : Prop) (r : W) : ℕ ×ₗ W :=
  open Classical in toLex (if fresh then 0 else 1, r)

theorem anew_lt {W : Type*} [Preorder W] {fresh fresh' : Prop} {r r' : W} (h : fresh → fresh')
    (hr : r' < r ∨ ¬ fresh ∧ fresh') : anew fresh' r' < anew fresh r := by
  unfold anew
  by_cases hf : fresh
  · rw [if_pos hf, if_pos (h hf)]
    exact lex_right (hr.resolve_right fun h => h.1 hf)
  · rw [if_neg hf]
    by_cases hf' : fresh'
    · rw [if_pos hf']
      exact lex_left one_pos
    · rw [if_neg hf']
      exact lex_right (hr.resolve_right fun h => hf' h.2)

/-- What a call can use up: `n` before its next attempt, and as much for an
attempt that is not fresh. -/
noncomputable def rounds (fresh : Prop) (n : ℕ) : ℕ :=
  open Classical in (if fresh then 0 else 1) + n

section rounds

variable {fresh fresh' : Prop} {n n' : ℕ}

/-- An attempt that fails was not fresh, and the next one is. -/
theorem rounds_le (h : fresh → fresh') (hn : n' ≤ n ∨ n' ≤ n + 1 ∧ ¬ fresh ∧ fresh') :
    rounds fresh' n' ≤ rounds fresh n := by
  unfold rounds
  by_cases hf : fresh
  · rw [if_pos hf, if_pos (h hf)]
    have := hn.resolve_right fun hn => hn.2.1 hf
    omega
  · rw [if_neg hf]
    rcases hn with hn | ⟨hn, -, hf'⟩
    · split_ifs <;> omega
    · rw [if_pos hf']
      omega

theorem rounds_lt (h : fresh → fresh') (hn : n' < n) : rounds fresh' n' < rounds fresh n :=
  calc rounds fresh' n' < rounds fresh' n := Nat.add_lt_add_left hn _
    _ ≤ rounds fresh n := rounds_le h (Or.inl le_rfl)

end rounds

end Program

/-! ### Credits call by call -/

section tally

variable [Fintype Tid] {c : Config Tid Op σ L} {t : Tid} {op : Op} {l : L} {f g : Op → L → ℕ}

/-- The credits of the running calls. -/
def tally (f : Op → L → ℕ) (c : Config Tid Op σ L) : ℕ :=
  ∑ t, (c.threads t).elim 0 fun x => f x.1 x.2

/-- A step of one thread changes its own credits only. -/
theorem tally_tau (ht : c.threads t = some (op, l)) (s' : σ) (l' : L)
    (ho : ∀ u op₁ l₁, u ≠ t → c.threads u = some (op₁, l₁) → f op₁ l₁ = g op₁ l₁) :
    tally f ⟨s', Function.update c.threads t (some (op, l'))⟩ + g op l = tally g c + f op l' := by
  have hrest : ∀ u ∈ Finset.univ.erase t,
      ((Function.update c.threads t (some (op, l')) u).elim 0 fun x => f x.1 x.2) =
        (c.threads u).elim 0 fun x => g x.1 x.2 := by
    intro u hu
    have hne := Finset.ne_of_mem_erase hu
    rw [Function.update_of_ne hne]
    rcases hc : c.threads u with _ | ⟨op₁, l₁⟩
    · rfl
    · exact ho u op₁ l₁ hne hc
  unfold tally
  rw [← Finset.add_sum_erase _ _ (Finset.mem_univ t),
    ← Finset.add_sum_erase _ (fun u => (c.threads u).elim 0 fun x => g x.1 x.2) (Finset.mem_univ t),
    Finset.sum_congr rfl hrest]
  simp only [ht, Function.update_self, Option.elim_some]
  omega

end tally

namespace Program

variable {P : Program Tid Op Res σ L ι}
  {ok : Trace Tid Op Res σ L → Config Tid Op σ L → Event Tid Op Res → Config Tid Op σ L → Prop}

/-- **Calls that go through phases.** Within a phase, a step uses up a credit of
the memory, or one of its own call, or it sets no other call back. -/
theorem lockFree_of_phase [Fintype Tid] {W₀ W : Type*} [PartialOrder W₀] [WellFoundedLT W₀]
    [Preorder W] [WellFoundedLT W] (phase : L → ℕ) (fresh : σ → Op → L → Prop) (rank : σ → L → W)
    (credit : σ → W₀) (due : σ → Op → L → ℕ)
    (hstep : ∀ {es c t op l i s' l'}, P.RunIf ok es c → c.threads t = some (op, l) →
      P.result l = none → P.step i t c.shared op l = some (s', l') →
      Nearer phase fresh rank c.shared op l (s', l') ∧ (phase l' = phase l →
        credit s' < credit c.shared ∨ credit s' ≤ credit c.shared ∧
          (∀ u op₁ l₁, u ≠ t → c.threads u = some (op₁, l₁) → due s' op₁ l₁ = due c.shared op₁ l₁) ∧
          (due s' op l' < due c.shared op l ∨ due s' op l' ≤ due c.shared op l ∧
            ∀ u op₁ l₁, u ≠ t → c.threads u = some (op₁, l₁) →
              (fresh s' op₁ l₁ ↔ fresh c.shared op₁ l₁) ∧ rank s' l₁ = rank c.shared l₁))) :
    P.LockFree ok := by
  refine lockFree_of_credit
    (fun c => toLex (tally (fun _ => phase) c, toLex (credit c.shared, tally (due c.shared) c)))
    (fun s op l => anew (fresh s op l) (rank s l)) ?_
  intro es c t op l i s' l' hr ht hres hst _
  have hphase := tally_tau (f := fun _ => phase) (g := fun _ => phase) ht s' l' fun _ _ _ _ _ => rfl
  obtain ⟨hlt | ⟨hp, hf, hrank⟩, hcost⟩ := hstep hr ht hres hst
  · have hlt : phase l' < phase l := hlt
    exact Or.inl (lex_left (by omega))
  · have hp : phase l' = phase l := hp
    have heq : tally (fun _ => phase) ⟨s', Function.update c.threads t (some (op, l'))⟩ =
        tally (fun _ => phase) c := by omega
    simp only [heq]
    rcases hcost hp with hlt | ⟨hle, hdue, hown⟩
    · exact Or.inl (lex_right (lex_left hlt))
    · have htally := tally_tau (f := due s') (g := due c.shared) ht s' l' hdue
      rcases hown with hlt | ⟨hown, hother⟩
      · refine Or.inl (lex_right (Prod.Lex.toLex_lt_toLex'.mpr ⟨hle, fun _ => ?_⟩))
        dsimp only
        omega
      · refine Or.inr ⟨Prod.Lex.toLex_le_toLex'.mpr ⟨le_rfl, fun _ =>
          Prod.Lex.toLex_le_toLex'.mpr ⟨hle, fun _ => ?_⟩⟩, anew_lt hf hrank, ?_⟩
        · dsimp only
          omega
        · intro u op₁ l₁ hu hc
          obtain ⟨h1, h2⟩ := hother u op₁ l₁ hu hc
          rw [propext h1, h2]

end Program

end Concur
